/-
  CryptoChat.Crypto.DesSchedule — what the subkeys of the code tell about the key.

  `PC2` is read eight places to the left of where it should (see `DesFips`): entry `t`
  takes bit `t - 8` of `C` and `D`, and nothing for the first eight. The rotations still
  bring every bit of `C_0` and `D_0` under one of the other entries in some round, so no
  bit that `PC1` reads is lost (`same_subkeys_iff`).
-/

import CryptoChat.Crypto.DesFips

namespace CryptoChat.Crypto.Des

open CryptoChat.Lib CryptoChat.Lib.BitSelect

/-- Two subkeys are the same when the bits under `PC2`, as the code reads it, agree. -/
theorem subkey_eq_iff (key key' : BitVec 64) (n m : Nat) :
    subkey key n = subkey key' m ↔ ∀ t ∈ Fips46.pc2, 8 ≤ t - 1 →
      ((Fips46.cd key (n + 1)).1 ++ (Fips46.cd key (n + 1)).2).getMsbD (t - 1 - 8) =
        ((Fips46.cd key' (m + 1)).1 ++ (Fips46.cd key' (m + 1)).2).getMsbD (t - 1 - 8) := by
  rw [subkey_eq, subkey_eq]
  constructor
  · intro h t ht h8
    have hnarrow := congrArg (BitVec.setWidth 48) h
    rw [BitVec.setWidth_setWidth_of_le _ (by omega), BitVec.setWidth_setWidth_of_le _ (by omega), BitVec.setWidth_eq,
      BitVec.setWidth_eq, select_eq_iff (by decide)] at hnarrow
    simpa [h8] using hnarrow t ht
  · intro h
    refine congrArg (BitVec.setWidth 64) ((select_eq_iff (by decide)).mpr ?_)
    intro t ht
    by_cases h8 : 8 ≤ t - 1
    · simpa [h8] using h t ht h8
    · simp [h8]

theorem cd_of_zero {key key' : BitVec 64} (h : Fips46.cd key 0 = Fips46.cd key' 0) (n : Nat) :
    Fips46.cd key n = Fips46.cd key' n := by
  induction n with
  | zero => exact h
  | succ n ih => simp only [Fips46.cd, ih]

/-- Every bit of `C_0` and of `D_0` comes under an entry of `PC2` that is read, in some round. -/
theorem subkeys_eq_iff (key key' : BitVec 64) :
    (∀ n < 16, subkey key n = subkey key' n) ↔ Fips46.cd key 0 = Fips46.cd key' 0 := by
  simp only [subkey_eq_iff]
  constructor
  · intro h
    have hc : (Fips46.cd key 0).1 = (Fips46.cd key' 0).1 := by
      apply eq_of_getMsbD
      intro i hi
      have hcover : ∀ i < 28, ∃ n < 16, ∃ t ∈ Fips46.pc2, 8 ≤ t - 1 ∧ t - 1 - 8 < 28 ∧
          (t - 1 - 8 + rotation (n + 1)) % 28 = i := by decide
      obtain ⟨n, hn, t, ht, h8, h28, hi⟩ := hcover i hi
      have hbit := h n hn t ht h8
      rwa [BitVec.getMsbD_append, BitVec.getMsbD_append, if_neg (by omega), if_neg (by omega),
        (getMsbD_cd key (n + 1) h28).1, (getMsbD_cd key' (n + 1) h28).1, hi] at hbit
    have hd : (Fips46.cd key 0).2 = (Fips46.cd key' 0).2 := by
      apply eq_of_getMsbD
      intro i hi
      have hcover : ∀ i < 28, ∃ n < 16, ∃ t ∈ Fips46.pc2, 28 ≤ t - 1 - 8 ∧ t - 1 - 8 - 28 < 28 ∧
          (t - 1 - 8 - 28 + rotation (n + 1)) % 28 = i := by decide
      obtain ⟨n, hn, t, ht, h28, h56, hi⟩ := hcover i hi
      have hbit := h n hn t ht (by omega)
      rwa [BitVec.getMsbD_append, BitVec.getMsbD_append, if_pos h28, if_pos h28,
        (getMsbD_cd key (n + 1) h56).2, (getMsbD_cd key' (n + 1) h56).2, hi] at hbit
    exact Prod.ext hc hd
  · intro h n _ t _ _
    rw [cd_of_zero h]

/-! ## Over the bytes of the key -/

/-- A key with its parity bits cleared. -/
def withoutParity (key : Bytes) : Bytes := key.map (· &&& 0xfe#8)

theorem ofBytes_withoutParity {key : Bytes} (hk : key.length = 8) :
    ofBytes 64 (withoutParity key) = ofBytes 64 key &&& 0xfefefefefefefefe#64 := by
  have hmask : ∀ i : Fin 64, (0xfefefefefefefefe#64).getLsbD i = (0xfe#8).getLsbD (i.val % 8) := by decide
  apply BitVec.eq_of_getLsbD_eq
  intro i hi
  have hbyte : (withoutParity key).reverse.getD (i / 8) 0#8 = key.reverse.getD (i / 8) 0#8 &&& 0xfe#8 := by
    have hlt : i / 8 < key.reverse.length := by
      rw [List.length_reverse, hk]
      omega
    rw [withoutParity, ← List.map_reverse, List.getD_eq_getElem?_getD, List.getD_eq_getElem?_getD, List.getElem?_map,
      List.getElem?_eq_getElem hlt]
    rfl
  rw [getLsbD_ofBytes, BitVec.getLsbD_and, getLsbD_ofBytes, hbyte, BitVec.getLsbD_and, hmask ⟨i, hi⟩, Bool.and_assoc]

theorem withoutParity_eq_iff {key key' : Bytes} (hk : key.length = 8) (hk' : key'.length = 8) :
    withoutParity key = withoutParity key' ↔
      ofBytes 64 key &&& 0xfefefefefefefefe#64 = ofBytes 64 key' &&& 0xfefefefefefefefe#64 := by
  rw [← ofBytes_withoutParity hk, ← ofBytes_withoutParity hk']
  constructor
  · intro h
    rw [h]
  · intro h
    have hlen : (withoutParity key).length = 8 := by rw [withoutParity, List.length_map, hk]
    have hlen' : (withoutParity key').length = 8 := by rw [withoutParity, List.length_map, hk']
    rw [← toBytes_ofBytes (w := 64) (by decide) hlen, h, toBytes_ofBytes (by decide) hlen']

/-- Two keys make the same subkeys exactly when they differ in parity bits only. -/
theorem same_subkeys_iff (d d' : DES) {key key' : Bytes} (hk : key.length = 8) (hk' : key'.length = 8) :
    (d.setKey key).2.mSubkeys = (d'.setKey key').2.mSubkeys ↔ withoutParity key = withoutParity key' := by
  rw [withoutParity_eq_iff hk hk', ← cd_eq_iff, ← subkeys_eq_iff]
  constructor
  · intro h n hn
    rw [← setKey_subkeys d hk ⟨n, hn⟩, ← setKey_subkeys d' hk' ⟨n, hn⟩, h]
  · intro h
    apply Vector.ext
    intro n hn
    exact (setKey_subkeys d hk ⟨n, hn⟩).trans ((h n hn).trans (setKey_subkeys d' hk' ⟨n, hn⟩).symm)

theorem same_subkeys_iff_parity :
    (DES.new.setKey sampleKey).2.mSubkeys = (DES.new.setKey (sampleKey.map (· ^^^ 1#8))).2.mSubkeys ↔
      withoutParity sampleKey = withoutParity (sampleKey.map (· ^^^ 1#8)) :=
  same_subkeys_iff DES.new DES.new (by decide) (by decide)

end CryptoChat.Crypto.Des
