/-
  CryptoChat.Crypto.DesInverse — the DES decryptor undoes the encryptor and the
  encryptor undoes the decryptor, whatever the subkeys are.

  `permute` is bit selection by its table (`permute_eq_select`), so `IP` and `FP` undo
  each other because their composition counts through the bits; the two round loops
  are one Feistel network run over the rounds in opposite orders, with the halves
  exchanged between them by `join` and `split`.
-/

import CryptoChat.Crypto.Des
import CryptoChat.Lib.BitSelect
import CryptoChat.Lib.Feistel

namespace CryptoChat.Crypto.Des

open CryptoChat.Lib CryptoChat.Lib.BitSelect

/-! ## The permutation helper -/

theorem getLsbD_permute_loop (input : BitVec 64) (l : List Nat) (j : Nat) :
    (l.foldl (permuteStep input) 0#64).getLsbD j =
      (decide (j < 64) && (l.reverse[j]?.map fun t => input.getLsbD (64 - t)).getD false) := by
  induction l using List.reverseRecOn generalizing j with
  | nil => simp
  | append_singleton l t ih =>
    rw [List.foldl_append, List.reverse_append]
    simp only [List.foldl_cons, List.foldl_nil, permuteStep, BitVec.getLsbD_or, BitVec.getLsbD_shiftLeft,
      BitVec.getLsbD_and, BitVec.getLsbD_ushiftRight, BitVec.getLsbD_one, ih]
    cases j with
    | zero => simp
    | succ j =>
      by_cases hj : j + 1 < 64
      · simp [hj, show j < 64 by omega]
      · simp [hj]

theorem permute_eq_select {table : List Nat} {n : Nat} (hl : table.length = n)
    (ht : ∀ t ∈ table, 1 ≤ t ∧ t ≤ 64) (input : BitVec 64) :
    permute input table n = (select n table input).setWidth 64 := by
  apply BitVec.eq_of_getLsbD_eq
  intro j hj
  rw [permute, List.take_of_length_le (by omega), getLsbD_permute_loop, BitVec.getLsbD_setWidth,
    BitVec.getLsbD_eq_getMsbD, getMsbD_select hl]
  by_cases hjn : j < n
  · have hr : table.reverse[j]? = table[n - 1 - j]? := by rw [List.getElem?_reverse (by omega), hl]
    rw [hr]
    cases h : table[n - 1 - j]? with
    | none => simp
    | some t =>
      obtain ⟨h1, h2⟩ := ht t (List.mem_of_getElem? h)
      have hb : input.getMsbD (t - 1) = input.getLsbD (64 - t) := by
        rw [BitVec.getMsbD_eq_getLsbD, show 64 - 1 - (t - 1) = 64 - t by omega]
        simp; omega
      simp [hj, hjn, hb]
  · have hr : table.reverse[j]? = none := List.getElem?_eq_none (by simp; omega)
    simp [hr, hjn]

theorem permute_eq_select_64 {table : List Nat} (hl : table.length = 64) (ht : ∀ t ∈ table, 1 ≤ t ∧ t ≤ 64)
    (input : BitVec 64) : permute input table 64 = select 64 table input := by
  rw [permute_eq_select hl ht, BitVec.setWidth_eq]

theorem permute_ip (x : BitVec 64) : permute x ip 64 = select 64 ip x :=
  permute_eq_select_64 (by decide) (by decide) x

theorem permute_fp (x : BitVec 64) : permute x fp 64 = select 64 fp x :=
  permute_eq_select_64 (by decide) (by decide) x

theorem permute_ip_fp (x : BitVec 64) : permute (permute x fp 64) ip 64 = x := by
  rw [permute_ip, permute_fp]
  exact select_inverse (by decide) (by decide) (by decide) x

theorem permute_fp_ip (x : BitVec 64) : permute (permute x ip 64) fp 64 = x := by
  rw [permute_ip, permute_fp]
  exact select_inverse (by decide) (by decide) (by decide) x

/-! ## Halves -/

theorem getLsbD_low_mask (i : Nat) : (0xffffffff#64).getLsbD i = decide (i < 32) := by
  by_cases hi : i < 64
  · have := show ∀ i : Fin 64, (0xffffffff#64).getLsbD i = decide (i.val < 32) by decide
    exact this ⟨i, hi⟩
  · rw [BitVec.getLsbD_of_ge _ _ (by omega)]
    simp; omega

theorem high_of_join (h l : BitVec 32) :
    ((((h.setWidth 64 <<< 32) ||| l.setWidth 64) >>> 32).setWidth 32 : BitVec 32) = h := by
  apply BitVec.eq_of_getLsbD_eq
  intro i hi
  simp [hi, show 32 + i < 64 by omega]

theorem low_of_join (h l : BitVec 32) :
    ((((h.setWidth 64 <<< 32) ||| l.setWidth 64) &&& 0xffffffff#64).setWidth 32 : BitVec 32) = l := by
  apply BitVec.eq_of_getLsbD_eq
  intro i hi
  simp only [BitVec.getLsbD_setWidth, BitVec.getLsbD_and, BitVec.getLsbD_or, BitVec.getLsbD_shiftLeft, getLsbD_low_mask]
  simp [hi, show i < 64 by omega]

theorem join_of_halves (x : BitVec 64) :
    (((x >>> 32).setWidth 32 : BitVec 32).setWidth 64 <<< 32) |||
      (((x &&& 0xffffffff#64).setWidth 32 : BitVec 32).setWidth 64) = x := by
  apply BitVec.eq_of_getLsbD_eq
  intro i hi
  simp only [BitVec.getLsbD_setWidth, BitVec.getLsbD_and, BitVec.getLsbD_or, BitVec.getLsbD_shiftLeft,
    BitVec.getLsbD_ushiftRight, getLsbD_low_mask]
  by_cases h : i < 32
  · simp [h, hi]
  · simp [h, hi, show i - 32 < 32 by omega, show i - 32 < 64 by omega, show 32 + (i - 32) = i by omega]

theorem split_join (lr : BitVec 32 × BitVec 32) : split (join lr) = lr.swap := by
  simp only [split, join, permute_ip_fp, high_of_join, low_of_join, Prod.swap]

theorem join_swap_split (block : BitVec 64) : join (split block).swap = block := by
  simp only [split, join, Prod.swap, join_of_halves, permute_fp_ip]

/-! ## Blocks -/

/-- The round loops are Feistel networks. -/
theorem foldl_round (d : DES) (ks : List (Fin 16)) (lr : BitVec 32 × BitVec 32) :
    ks.foldl d.round lr = Feistel.rounds (· ^^^ ·) (fun k r => feistel r (d.mSubkeys.get k)) ks lr := rfl

theorem foldl_round_reverse (d : DES) (ks : List (Fin 16)) (block : BitVec 64) :
    join (ks.reverse.foldl d.round (split (join (ks.foldl d.round (split block))))) = block := by
  have hop : ∀ a b : BitVec 32, a ^^^ b ^^^ b = a := fun a b => by
    rw [BitVec.xor_assoc, BitVec.xor_self, BitVec.xor_zero]
  rw [split_join, foldl_round, foldl_round, Feistel.rounds_reverse _ hop, join_swap_split]

theorem encryptBlock_ok (d : DES) {block : Bytes} (h : block.length = 8) :
    d.encryptBlock block = .ok (toBytes 8 (join ((List.finRange 16).foldl d.round (split (ofBytes 64 block))))) := by
  rw [DES.encryptBlock, if_neg (by omega)]

theorem decryptBlock_ok (d : DES) {block : Bytes} (h : block.length = 8) :
    d.decryptBlock block =
      .ok (toBytes 8 (join ((List.finRange 16).reverse.foldl d.round (split (ofBytes 64 block))))) := by
  rw [DES.decryptBlock, if_neg (by omega)]

/-- Decrypting what was encrypted, and encrypting what was decrypted, gives the block
    back, for every content of the subkey array. -/
theorem des_decrypt_encrypt (d : DES) {block : Bytes} (h : block.length = 8) :
    (d.encryptBlock block).bind d.decryptBlock = .ok block ∧
      (d.decryptBlock block).bind d.encryptBlock = .ok block := by
  have hr := foldl_round_reverse d (List.finRange 16).reverse (ofBytes 64 block)
  rw [List.reverse_reverse] at hr
  constructor
  · rw [encryptBlock_ok d h, Except.bind, decryptBlock_ok d (length_toBytes _ _), ofBytes_toBytes (by omega),
      foldl_round_reverse, toBytes_ofBytes (by omega) h]
  · rw [decryptBlock_ok d h, Except.bind, encryptBlock_ok d (length_toBytes _ _), ofBytes_toBytes (by omega),
      hr, toBytes_ofBytes (by omega) h]

theorem des_decrypt_encrypt_zeros :
    (DES.new.encryptBlock (List.replicate 8 0#8)).bind DES.new.decryptBlock = .ok (List.replicate 8 0#8) ∧
      (DES.new.decryptBlock (List.replicate 8 0#8)).bind DES.new.encryptBlock = .ok (List.replicate 8 0#8) :=
  des_decrypt_encrypt _ List.length_replicate

end CryptoChat.Crypto.Des
