/-
  CryptoChat.Crypto.AesInverse — the AES decryptor undoes the encryptor and the
  encryptor undoes the decryptor, whatever the round-key array holds.

  The two are written separately in the source: a second table, row shifts of their
  own, and a general field multiplication against `xtime`. Each transformation is
  shown inverse to its counterpart (`multiply_eq` and `xtime_eq` put both column
  transformations into GF(2^8), where the two matrices have product 1), and an
  induction over the rounds, taken in opposite orders, cancels them from the inside
  out (`decryptRounds_encryptRounds`, `encryptRounds_decryptRounds`).
-/

import CryptoChat.Crypto.Aes
import CryptoChat.Crypto.Fips197

namespace CryptoChat.Crypto.Aes

open CryptoChat.Lib
open CryptoChat.Crypto.Fips197 (fieldPoly mixMatrix circulant)

/-! ## The field operations -/

theorem xtime_eq (x : Byte) : xtime x = Gf2.xtimes fieldPoly x := by
  revert x; decide

theorem xtime_eq_mul (x : Byte) : xtime x = Gf2.mul fieldPoly 2#8 x := by
  rw [xtime_eq, Gf2.xtimes_eq_mul (by omega)]

/-- The loop of `multiply` after `n` bits: the partial product, and `x` times `X ^ n`. -/
theorem multiply_loop (x y : Byte) (n : Nat) :
    (List.range n).foldl (fun (res, x) i => (if (y >>> i) &&& 1#8 ≠ 0#8 then res ^^^ x else res, xtime x)) (0#8, x) =
      (Gf2.mulLow fieldPoly x y n, (Gf2.xtimes fieldPoly)^[n] x) := by
  induction n with
  | zero => rfl
  | succ n ih =>
    have hbit : ((y >>> n) &&& 1#8 ≠ 0#8) = (y.getLsbD n = true) := by
      rw [BitVec.and_one_eq_setWidth_ofBool_getLsbD]
      cases h : (y >>> n).getLsbD 0 <;> simp_all
    rw [List.range_succ, List.foldl_append, ih]
    simp only [List.foldl_cons, List.foldl_nil, hbit, Gf2.mulLow, xtime_eq, Function.iterate_succ_apply']
    split <;> simp

theorem multiply_eq (x y : Byte) : multiply x y = Gf2.mul fieldPoly y x := by
  rw [multiply, multiply_loop, Gf2.mul_comm (by omega)]; rfl

/-! ## Each transformation and its inverse -/

theorem getElem?_sBoxTable (x : Byte) : sBoxTable.toList[x.toNat]? = some (sBox x) := by
  have h : x.toNat < 256 := x.isLt
  rw [Vector.getElem?_toList, Vector.getElem?_eq_getElem h]; rfl

/-- Looking up every entry of the one table in the other counts through the bytes. -/
theorem map_invSBox_sBoxTable : sBoxTable.toList.map invSBox = (List.range 256).map (BitVec.ofNat 8) := by
  decide +kernel

theorem invSBox_sBox (x : Byte) : invSBox (sBox x) = x := by
  have h := congrArg (·[x.toNat]?) map_invSBox_sBoxTable
  simp only [List.getElem?_map, getElem?_sBoxTable, Option.map_some] at h
  rw [List.getElem?_range x.isLt, Option.map_some, BitVec.ofNat_toNat, BitVec.setWidth_eq] at h
  exact Option.some.inj h

/-- On the finitely many bytes a one-sided inverse is two-sided. -/
theorem sBox_invSBox (x : Byte) : sBox (invSBox x) = x := by
  have hinj : Function.Injective sBox := Function.LeftInverse.injective (g := invSBox) invSBox_sBox
  have : Finite Byte := Finite.of_equiv (Fin (2 ^ 8)) ⟨BitVec.ofFin, BitVec.toFin, fun _ => rfl, fun _ => rfl⟩
  obtain ⟨y, rfl⟩ := Finite.surjective_of_injective hinj x
  rw [invSBox_sBox]

theorem invSubBytes_subBytes (s : State) : invSubBytes (subBytes s) = s := by
  apply State.ext; intro i j
  simp [invSubBytes, subBytes, invSBox_sBox]

theorem subBytes_invSubBytes (s : State) : subBytes (invSubBytes s) = s := by
  apply State.ext; intro i j
  simp [invSubBytes, subBytes, sBox_invSBox]

theorem invShiftRows_shiftRows (s : State) : invShiftRows (shiftRows s) = s := by
  apply State.ext; intro i j
  rw [get_invShiftRows, get_shiftRows, sub_add_cancel]

theorem shiftRows_invShiftRows (s : State) : shiftRows (invShiftRows s) = s := by
  apply State.ext; intro i j
  rw [get_shiftRows, get_invShiftRows, add_sub_cancel_right]

theorem addRoundKey_addRoundKey (ks : KeySchedule) (round : Fin 15) (s : State) :
    addRoundKey ks round (addRoundKey ks round s) = s := by
  apply State.ext; intro i j
  rw [addRoundKey, State.get_ofFn, addRoundKey, State.get_ofFn, BitVec.xor_assoc, BitVec.xor_self, BitVec.xor_zero]

def invMixMatrix : Fin 4 → Fin 4 → Byte := circulant ![0x0e#8, 0x0b#8, 0x0d#8, 0x09#8]

theorem mixColumn_eq (v : Fin 4 → Byte) :
    mixColumn (v 0) (v 1) (v 2) (v 3) = Gf2.matVec fieldPoly mixMatrix v := by
  have h3 : ∀ x : Byte, Gf2.mul fieldPoly 3#8 x = Gf2.mul fieldPoly 2#8 x ^^^ x := fun x => by
    rw [show (3#8) = 2#8 ^^^ 1#8 by decide, Gf2.mul_comm (by omega) (2#8 ^^^ 1#8), Gf2.mul_xor (by omega),
      Gf2.mul_one (by omega), Gf2.mul_comm (by omega) x]
  have h1 : ∀ x : Byte, Gf2.mul fieldPoly 1#8 x = x := fun x => by
    rw [Gf2.mul_comm (by omega), Gf2.mul_one (by omega)]
  funext i
  fin_cases i <;>
    simp [mixColumn, h3, h1, xtime_eq_mul, Gf2.matVec, Gf2.dot, mixMatrix, circulant, List.finRange_succ,
      BitVec.xor_assoc]

theorem invMixColumn_eq (v : Fin 4 → Byte) :
    invMixColumn (v 0) (v 1) (v 2) (v 3) = Gf2.matVec fieldPoly invMixMatrix v := by
  funext i
  fin_cases i <;>
    simp [invMixColumn, multiply_eq, Gf2.matVec, Gf2.dot, invMixMatrix, circulant, List.finRange_succ,
      BitVec.xor_assoc]

theorem get_mixColumns (s : State) (i j : Fin 4) :
    (mixColumns s).get i j = Gf2.matVec fieldPoly mixMatrix (fun k => s.get k j) i := by
  rw [← mixColumn_eq]; simp [mixColumns]

theorem get_invMixColumns (s : State) (i j : Fin 4) :
    (invMixColumns s).get i j = Gf2.matVec fieldPoly invMixMatrix (fun k => s.get k j) i := by
  rw [← invMixColumn_eq]; simp [invMixColumns]

theorem invMixColumns_mixColumns (s : State) : invMixColumns (mixColumns s) = s := by
  apply State.ext; intro i j
  simp only [get_invMixColumns, get_mixColumns]
  rw [Gf2.matVec_matVec (by omega) (by decide)]

theorem mixColumns_invMixColumns (s : State) : mixColumns (invMixColumns s) = s := by
  apply State.ext; intro i j
  simp only [get_invMixColumns, get_mixColumns]
  rw [Gf2.matVec_matVec (by omega) (by decide)]

/-! ## Rounds -/

theorem encryptRounds_succ (ks : KeySchedule) (n : Nat) (hn : n + 1 < 15) (s : State) :
    encryptRounds ks (n + 1) hn s =
      addRoundKey ks ⟨n + 1, hn⟩ (mixColumns (shiftRows (subBytes (encryptRounds ks n (by omega) s)))) := by
  simp [encryptRounds]

theorem decryptRounds_succ (ks : KeySchedule) (n : Nat) (hn : n + 1 < 15) (s : State) :
    decryptRounds ks (n + 1) hn s = decryptRounds ks n (by omega)
      (invMixColumns (addRoundKey ks ⟨n + 1, hn⟩ (invSubBytes (invShiftRows s)))) := by
  simp [decryptRounds]

theorem decryptRounds_encryptRounds (ks : KeySchedule) (n : Nat) (hn : n < 15) (s : State) :
    decryptRounds ks n hn (shiftRows (subBytes (encryptRounds ks n hn s))) = shiftRows (subBytes s) := by
  induction n with
  | zero => rfl
  | succ n ih =>
    -- the outermost round of the encryptor meets the first one of the decryptor
    rw [decryptRounds_succ, encryptRounds_succ, invShiftRows_shiftRows, invSubBytes_subBytes,
      addRoundKey_addRoundKey, invMixColumns_mixColumns]
    exact ih _

theorem encryptRounds_decryptRounds (ks : KeySchedule) (n : Nat) (hn : n < 15) (s : State) :
    encryptRounds ks n hn (invSubBytes (invShiftRows (decryptRounds ks n hn s))) = invSubBytes (invShiftRows s) := by
  induction n generalizing s with
  | zero => rfl
  | succ n ih =>
    rw [encryptRounds_succ, decryptRounds_succ, ih, subBytes_invSubBytes, shiftRows_invShiftRows,
      mixColumns_invMixColumns, addRoundKey_addRoundKey]

namespace AES

theorem decryptState_encryptState (a : AES) (s : State) : a.decryptState (a.encryptState s) = s := by
  simp only [decryptState, encryptState, addRoundKey_addRoundKey, decryptRounds_encryptRounds,
    invShiftRows_shiftRows, invSubBytes_subBytes]

theorem encryptState_decryptState (a : AES) (s : State) : a.encryptState (a.decryptState s) = s := by
  simp only [decryptState, encryptState, addRoundKey_addRoundKey, encryptRounds_decryptRounds,
    subBytes_invSubBytes, shiftRows_invShiftRows]

end AES

/-! ## Blocks -/

@[simp] theorem length_storeState (s : State) : (storeState s).length = 16 := by simp [storeState, List.finRange_succ]

theorem loadState_storeState (s : State) : loadState (storeState s) = s := by
  apply State.ext; intro i j
  fin_cases i <;> fin_cases j <;> simp [loadState, storeState, List.finRange_succ]

theorem storeState_loadState {block : Bytes} (h : block.length = 16) : storeState (loadState block) = block := by
  apply List.ext_getElem (by simp [h])
  intro n hn _
  rw [length_storeState] at hn
  interval_cases n <;> simp [loadState, storeState, List.finRange_succ, h]

/-- Decrypting what was encrypted, and encrypting what was decrypted, gives the block
    back, for every object and every content of its round-key array. -/
theorem aes_decrypt_encrypt (a : AES) {block : Bytes} (h : block.length = 16) :
    (a.encryptBlock block).bind a.decryptBlock = .ok block ∧
      (a.decryptBlock block).bind a.encryptBlock = .ok block := by
  simp [AES.encryptBlock, AES.decryptBlock, h, Except.bind, loadState_storeState, storeState_loadState,
    AES.decryptState_encryptState, AES.encryptState_decryptState]

theorem aes_decrypt_encrypt_zeros :
    let a : AES := ⟨32, Vector.replicate 240 0x5a#8, Or.inr (Or.inr rfl)⟩
    (a.encryptBlock (List.replicate 16 0#8)).bind a.decryptBlock = .ok (List.replicate 16 0#8) ∧
      (a.decryptBlock (List.replicate 16 0#8)).bind a.encryptBlock = .ok (List.replicate 16 0#8) :=
  aes_decrypt_encrypt _ List.length_replicate

end CryptoChat.Crypto.Aes
