/-
  CryptoChat.Crypto.Caesar — the Caesar cipher of `classic/Caesar.cpp`.

  Both remainders keep the sign of what they divide: the constructor's may leave a negative
  shift, and the loop adds 26 to a negative one. So both directions rotate the alphabet
  (`encrypt_eq`, `decrypt_eq`), and the laws are those of rotations.
-/

import CryptoChat.Crypto.Classic

namespace CryptoChat.Crypto.Classic

open CryptoChat.Lib Ctype CheckedInt

/-! ## The code -/

structure Caesar where
  m_shift : Int
  bounds : -26 < m_shift ∧ m_shift < 26

namespace Caesar

/-- `m_shift(shift % 26)`. -/
def new (shift : Int) : Caesar :=
  ⟨shift.tmod 26, Int.lt_tmod_of_pos shift (by decide), Int.tmod_lt_of_pos shift (by decide)⟩

/-- `int val = x % 26; if (val < 0) val += 26;` -/
def wrap (x : Int) : Int :=
  let val := x.tmod 26
  if val < 0 then val + 26 else val

def encrypt (caesar : Caesar) (plaintext : Bytes) : Bytes :=
  plaintext.map fun ch => if isalpha ch then letter ch (wrap (place ch + caesar.m_shift)) else ch

def decrypt (caesar : Caesar) (ciphertext : Bytes) : Bytes :=
  ciphertext.map fun ch => if isalpha ch then letter ch (wrap (place ch - caesar.m_shift)) else ch

/-! ## Rotations -/

/-- No sum of the two loops leaves the range of an `int`. -/
theorem isInt_sums (caesar : Caesar) {ch : Byte} (h : isalpha ch) :
    IsInt (place ch + caesar.m_shift) ∧ IsInt (place ch - caesar.m_shift) := by
  obtain ⟨h0, h25⟩ := place_bounds ch h
  obtain ⟨hlow, hhigh⟩ := caesar.bounds
  exact ⟨⟨by omega, by omega⟩, ⟨by omega, by omega⟩⟩

theorem wrap_eq (x : Int) : wrap x = (x : ZMod 26).val := by
  have hsplit : x.tmod 26 = x % 26 ∨ x.tmod 26 = x % 26 - 26 := by
    rw [Int.tmod_eq_emod]
    split
    · exact .inl (Int.sub_zero _)
    · exact .inr rfl
  have hval : ((x : ZMod 26).val : Int) = x % 26 := ZMod.val_intCast x
  rw [hval, wrap]
  split
  · omega
  · have hlow := Int.lt_tmod_of_pos x (show (0 : Int) < 26 by decide)
    omega

theorem encrypt_eq (caesar : Caesar) (plaintext : Bytes) :
    caesar.encrypt plaintext = plaintext.map (rotate caesar.m_shift) := by
  refine List.map_congr_left fun ch _ => ?_
  rw [wrap_eq, Int.cast_add]
  rfl

theorem decrypt_eq (caesar : Caesar) (ciphertext : Bytes) :
    caesar.decrypt ciphertext = ciphertext.map (rotate (-caesar.m_shift)) := by
  refine List.map_congr_left fun ch _ => ?_
  rw [wrap_eq, Int.cast_sub, sub_eq_add_neg]
  rfl

/-- The shift counts modulo 26. -/
theorem m_shift_new (shift : Int) : ((new shift).m_shift : ZMod 26) = shift := by
  have h26 : ((26 : Int) : ZMod 26) = 0 := by decide
  have hdef : (new shift).m_shift = shift - 26 * shift.tdiv 26 := Int.tmod_def shift 26
  rw [hdef, Int.cast_sub, Int.cast_mul, h26, zero_mul, sub_zero]

theorem encrypt_encrypt (s t : Int) (text : Bytes) :
    (new s).encrypt ((new t).encrypt text) = (new (s + t)).encrypt text := by
  rw [encrypt_eq, encrypt_eq, encrypt_eq, List.map_map, m_shift_new, m_shift_new, m_shift_new]
  refine List.map_congr_left fun ch _ => ?_
  rw [Function.comp_apply, rotate_rotate, add_comm, Int.cast_add]

theorem encrypt_congr {s t : Int} (h : s ≡ t [ZMOD 26]) (text : Bytes) : (new s).encrypt text = (new t).encrypt text := by
  rw [encrypt_eq, encrypt_eq, m_shift_new, m_shift_new, (ZMod.intCast_eq_intCast_iff s t 26).mpr h]

theorem map_rotate_cancel {k l : ZMod 26} (h : l + k = 0) (text : Bytes) : (text.map (rotate l)).map (rotate k) = text := by
  rw [List.map_map]
  exact (List.map_congr_left fun ch _ => rotate_cancel h ch).trans (List.map_id text)

theorem decrypt_encrypt (caesar : Caesar) (text : Bytes) : caesar.decrypt (caesar.encrypt text) = text := by
  rw [encrypt_eq, decrypt_eq]
  exact map_rotate_cancel (add_neg_cancel _) text

theorem encrypt_decrypt (caesar : Caesar) (text : Bytes) : caesar.encrypt (caesar.decrypt text) = text := by
  rw [encrypt_eq, decrypt_eq]
  exact map_rotate_cancel (neg_add_cancel _) text

theorem kept_encrypt (caesar : Caesar) (text : Bytes) : Kept text (caesar.encrypt text) := by
  rw [encrypt_eq]
  exact kept_rotate _ text

theorem kept_decrypt (caesar : Caesar) (text : Bytes) : Kept text (caesar.decrypt text) := by
  rw [decrypt_eq]
  exact kept_rotate _ text

/-- For all shifts and texts. -/
theorem rotates (s t : Int) (text : Bytes) :
    (new s).encrypt ((new t).encrypt text) = (new (s + t)).encrypt text ∧
      (s ≡ t [ZMOD 26] → (new s).encrypt text = (new t).encrypt text) ∧
      (new s).decrypt ((new s).encrypt text) = text ∧ (new s).encrypt ((new s).decrypt text) = text ∧
      Kept text ((new s).encrypt text) ∧ Kept text ((new s).decrypt text) :=
  ⟨encrypt_encrypt s t text, fun h => encrypt_congr h text, decrypt_encrypt _ text, encrypt_decrypt _ text,
    kept_encrypt _ text, kept_decrypt _ text⟩

/-- A shift of -1 is one of 25. -/
theorem rotates_back : (new (-1)).encrypt (ascii "A".toList) = (new 25).encrypt (ascii "A".toList) :=
  (rotates (-1) 25 (ascii "A".toList)).2.1 (by decide)

end Caesar

end CryptoChat.Crypto.Classic
