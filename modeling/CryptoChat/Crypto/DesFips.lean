/-
  CryptoChat.Crypto.DesFips — the block cipher of the code against FIPS 46-3.

  Proved: under subkeys that are the round keys of the standard, the code's block
  encryption is the standard's (`encryptBlock_with`), and the code's `C` and `D` are
  the standard's in every round (`halves_eq`). The subkeys themselves are `PC2` read
  from a 56-bit value that is not moved to the left of its 64-bit word, so bit `t` is
  the standard's bit `t - 8`; they are the standard's round keys exactly when every
  key bit outside the parity bits is zero (`des_fips_iff`).
-/

import CryptoChat.Crypto.DesInverse
import CryptoChat.Crypto.Fips46

namespace CryptoChat.Crypto.Des

open CryptoChat.Lib CryptoChat.Lib.BitSelect

/-! ## Values aligned at the left of a 64-bit word -/

theorem getMsbD_align (r : BitVec 32) (i : Nat) : (r.setWidth 64 <<< 32).getMsbD i = r.getMsbD i := by
  simp

theorem permute_align {table : List Nat} {n : Nat} (hl : table.length = n) (ht : ∀ t ∈ table, 1 ≤ t ∧ t ≤ 64)
    (r : BitVec 32) : permute (r.setWidth 64 <<< 32) table n = (select n table r).setWidth 64 := by
  rw [permute_eq_select hl ht]
  congr 1
  exact (select_eq_iff hl).mpr fun t _ => getMsbD_align r (t - 1)

theorem permute_e (r : BitVec 32) : permute (r.setWidth 64 <<< 32) e 48 = (select 48 Fips46.e r).setWidth 64 :=
  permute_align (by decide) (by decide) r

theorem permute_p (r : BitVec 32) : (permute (r.setWidth 64 <<< 32) p 32).setWidth 32 = select 32 Fips46.p r := by
  rw [permute_align (by decide) (by decide) r]
  simp [p, Fips46.p]

/-! ## The round function -/

theorem sValue_eq : ∀ (i : Fin 8) (b : BitVec 6), sValue i (b.setWidth 8) = (Fips46.sBox i b).setWidth 8 := by
  decide

theorem getLsbD_chunk_mask (j : Nat) : (0x3f#64).getLsbD j = decide (j < 6) := by
  by_cases hj : j < 64
  · have := show ∀ j : Fin 64, (0x3f#64).getLsbD j = decide (j.val < 6) by decide
    exact this ⟨j, hj⟩
  · rw [BitVec.getLsbD_of_ge _ _ (by omega)]
    simp; omega

theorem chunk_eq (b : BitVec 48) (i : Nat) :
    ((b.setWidth 64 >>> (42 - i * 6) &&& 0x3f#64).setWidth 8 : Byte) = (Fips46.chunk b i).setWidth 8 := by
  apply BitVec.eq_of_getLsbD_eq
  intro j hj
  simp only [Fips46.chunk, BitVec.getLsbD_setWidth, BitVec.getLsbD_and, BitVec.getLsbD_ushiftRight,
    BitVec.getLsbD_extractLsb', getLsbD_chunk_mask, Nat.mul_comm i 6]
  by_cases h6 : j < 6
  · simp [hj, h6, show 42 - 6 * i + j < 64 by omega]
  · simp [h6]

theorem first_step (y : BitVec 4) : (0#32 <<< 4) ||| ((y.setWidth 8 : Byte).setWidth 32) = y.setWidth 32 := by
  apply BitVec.eq_of_getLsbD_eq
  intro i hi
  simp only [BitVec.zero_shiftLeft, BitVec.zero_or, BitVec.getLsbD_setWidth]
  by_cases h8 : i < 8
  · simp [h8]
  · simp [h8, BitVec.getLsbD_of_ge y i (by omega)]

/-- One iteration of the S-box loop appends four bits. -/
theorem append_step {n : Nat} (x : BitVec n) (y : BitVec 4) :
    ((x.setWidth 32 : BitVec 32) <<< 4) ||| ((y.setWidth 8 : Byte).setWidth 32) = (x ++ y).setWidth 32 := by
  apply BitVec.eq_of_getLsbD_eq
  intro i hi
  simp only [BitVec.getLsbD_or, BitVec.getLsbD_shiftLeft, BitVec.getLsbD_setWidth, BitVec.getLsbD_append]
  by_cases h4 : i < 4
  · simp [h4, hi, show i < 8 by omega]
  · simp [h4, hi, show i - 4 < 32 by omega, BitVec.getLsbD_of_ge y i (by omega)]

theorem setWidth_xor_setWidth (a b : BitVec 48) : a.setWidth 64 ^^^ b.setWidth 64 = (a ^^^ b).setWidth 64 := by
  simp

/-- The S-box loop over any eight four-bit values. -/
theorem foldl_append (v : Nat → BitVec 4) (g : Nat → Byte) (h : ∀ i < 8, g i = (v i).setWidth 8) :
    (List.range 8).foldl (fun (output : BitVec 32) i => (output <<< 4) ||| (g i).setWidth 32) 0#32 =
      v 0 ++ v 1 ++ v 2 ++ v 3 ++ v 4 ++ v 5 ++ v 6 ++ v 7 := by
  simp only [show List.range 8 = [0, 1, 2, 3, 4, 5, 6, 7] from rfl, List.foldl_cons, List.foldl_nil,
    h 0 (by omega), h 1 (by omega), h 2 (by omega), h 3 (by omega), h 4 (by omega), h 5 (by omega),
    h 6 (by omega), h 7 (by omega), first_step, append_step]
  exact BitVec.setWidth_eq _

theorem feistel_eq (r : BitVec 32) (k : BitVec 48) : feistel r (k.setWidth 64) = Fips46.f k r := by
  simp only [feistel, permute_e, setWidth_xor_setWidth, chunk_eq]
  rw [foldl_append (fun i => Fips46.sBox i (Fips46.chunk (select 48 Fips46.e r ^^^ k) i)) _
    fun i hi => sValue_eq ⟨i, hi⟩ _, permute_p]
  simp only [Fips46.f]

/-! ## Blocks -/

theorem split_eq (block : BitVec 64) :
    split block = ((select 64 Fips46.ip block).extractLsb' 32 32, (select 64 Fips46.ip block).extractLsb' 0 32) := by
  have hip : ip = Fips46.ip := by decide
  rw [split, permute_ip, hip]
  refine Prod.ext ?_ ?_ <;> apply BitVec.eq_of_getLsbD_eq <;> intro i hi
  · simp [hi]
  · simp only [BitVec.getLsbD_setWidth, BitVec.getLsbD_and, BitVec.getLsbD_extractLsb', getLsbD_low_mask]
    simp [hi]

theorem or_eq_append (h l : BitVec 32) : (h.setWidth 64 <<< 32) ||| l.setWidth 64 = h ++ l := by
  apply BitVec.eq_of_getLsbD_eq
  intro i hi
  simp only [BitVec.getLsbD_or, BitVec.getLsbD_shiftLeft, BitVec.getLsbD_setWidth, BitVec.getLsbD_append]
  by_cases h32 : i < 32
  · simp [h32, hi]
  · simp [h32, hi, show i - 32 < 64 by omega, BitVec.getLsbD_of_ge l i (by omega)]

theorem join_eq (lr : BitVec 32 × BitVec 32) : join lr = select 64 Fips46.ipInv (lr.2 ++ lr.1) := by
  have hfp : fp = Fips46.ipInv := by decide
  rw [join, permute_fp, hfp, or_eq_append]

theorem foldl_round_fips {d : DES} {k : Nat → BitVec 48} (h : ∀ n : Fin 16, d.mSubkeys.get n = (k n).setWidth 64)
    (lr : BitVec 32 × BitVec 32) :
    (List.finRange 16).foldl d.round lr = Feistel.rounds (· ^^^ ·) Fips46.f ((List.range 16).map k) lr := by
  have hf : ∀ n ∈ List.finRange 16, ∀ r, feistel r (d.mSubkeys.get n) = Fips46.f (k n) r := by
    intro n _ r
    rw [h n, feistel_eq]
  calc (List.finRange 16).foldl d.round lr
      = Feistel.rounds (· ^^^ ·) (fun n r => feistel r (d.mSubkeys.get n)) (List.finRange 16) lr := foldl_round d _ lr
    _ = Feistel.rounds (· ^^^ ·) (fun n => Fips46.f (k n)) (List.finRange 16) lr := Feistel.rounds_congr _ _ hf lr
    _ = Feistel.rounds (· ^^^ ·) Fips46.f ((List.finRange 16).map fun n => k n) lr := by
      rw [Feistel.rounds, Feistel.rounds, List.foldl_map]
      rfl
    _ = Feistel.rounds (· ^^^ ·) Fips46.f ((List.range 16).map k) lr := by
      rw [show List.range 16 = (List.finRange 16).map Fin.val by decide, List.map_map]
      rfl

/-- Under the round keys of the standard the encryption is the standard's. -/
theorem encryptBlock_with {d : DES} {k : Nat → BitVec 48} (h : ∀ n : Fin 16, d.mSubkeys.get n = (k n).setWidth 64)
    {block : Bytes} (hb : block.length = 8) :
    d.encryptBlock block = .ok (toBytes 8 (Fips46.encryptWith k (ofBytes 64 block))) := by
  rw [encryptBlock_ok d hb, foldl_round_fips h, split_eq, join_eq]
  rfl

/-! ## The key schedule -/

theorem shifts_lt (n : Nat) : shifts.getD n 0 < 28 := by
  by_cases hn : n < 16
  · have := show ∀ n : Fin 16, shifts.getD n 0 < 28 by decide
    exact this ⟨n, hn⟩
  · rw [List.getD_eq_getElem?_getD, List.getElem?_eq_none (by simp [shifts]; omega)]
    decide

theorem getLsbD_mask28 (i : Nat) : (0x0fffffff#64).getLsbD i = decide (i < 28) := by
  by_cases hi : i < 64
  · have := show ∀ i : Fin 64, (0x0fffffff#64).getLsbD i = decide (i.val < 28) by decide
    exact this ⟨i, hi⟩
  · rw [BitVec.getLsbD_of_ge _ _ (by omega)]
    simp; omega

theorem rotate28_eq (x : BitVec 28) {n : Nat} (hn : n < 28) :
    rotate28 (x.setWidth 32) n = (x.rotateLeft n).setWidth 32 := by
  have hm (i : Nat) (hi : i < 32) : (0x0fffffff#32).getLsbD i = decide (i < 28) := by
    have := show ∀ i : Fin 32, (0x0fffffff#32).getLsbD i = decide (i.val < 28) by decide
    exact this ⟨i, hi⟩
  apply BitVec.eq_of_getLsbD_eq
  intro i hi
  simp only [rotate28, BitVec.getLsbD_and, BitVec.getLsbD_or, BitVec.getLsbD_shiftLeft, BitVec.getLsbD_ushiftRight,
    BitVec.getLsbD_setWidth, BitVec.getLsbD_rotateLeft_of_le hn, hm i hi]
  by_cases h28 : i < 28
  · by_cases hin : i < n
    · simp [h28, hi, hin]
      omega
    · simp [h28, hi, hin, show i - n < 32 by omega, BitVec.getLsbD_of_ge x (28 - n + i) (by omega)]
  · simp [h28]
    omega

/-- The code's `C` and `D` are the standard's. -/
theorem halves_eq (key : BitVec 64) (n : Nat) :
    halves key n = ((Fips46.cd key n).1.setWidth 32, (Fips46.cd key n).2.setWidth 32) := by
  induction n with
  | zero =>
    have hl : pc1 = Fips46.pc1 := by decide
    simp only [halves, Fips46.cd]
    rw [permute_eq_select (by decide) (by decide), hl]
    refine Prod.ext ?_ ?_ <;> apply BitVec.eq_of_getLsbD_eq <;> intro i hi <;>
      simp only [BitVec.getLsbD_setWidth, BitVec.getLsbD_and, BitVec.getLsbD_ushiftRight, BitVec.getLsbD_extractLsb',
        getLsbD_mask28]
    · by_cases h28 : i < 28
      · simp [hi, h28, show 28 + i < 64 by omega]
      · simp [h28]
    · by_cases h28 : i < 28
      · simp [hi, h28, show i < 64 by omega]
      · simp [h28]
  | succ n ih =>
    simp only [halves, Fips46.cd, ih, rotate28_eq _ (shifts_lt n)]
    rfl

/-- `combined`, as the 56-bit string it stands for. -/
theorem subkey_eq (key : BitVec 64) (n : Nat) :
    subkey key n =
      (select 48 Fips46.pc2 (((Fips46.cd key (n + 1)).1 ++ (Fips46.cd key (n + 1)).2).setWidth 64 : BitVec 64)).setWidth 64 := by
  have hl : pc2 = Fips46.pc2 := by decide
  have hc (c d : BitVec 28) :
      ((c.setWidth 32 : BitVec 32).setWidth 64 <<< 28) ||| (d.setWidth 32 : BitVec 32).setWidth 64 =
        ((c ++ d).setWidth 64 : BitVec 64) := by
    apply BitVec.eq_of_getLsbD_eq
    intro i hi
    simp only [BitVec.getLsbD_or, BitVec.getLsbD_shiftLeft, BitVec.getLsbD_setWidth, BitVec.getLsbD_append]
    by_cases h28 : i < 28
    · simp [h28, hi, show i < 32 by omega]
    · have hd : d.getLsbD i = false := BitVec.getLsbD_of_ge d i (by omega)
      by_cases h56 : i - 28 < 28
      · simp [h28, hi, hd, h56, show i - 28 < 32 by omega, show i - 28 < 64 by omega]
      · simp [h28, hd, BitVec.getLsbD_of_ge c (i - 28) (by omega)]
  simp only [subkey, halves_eq, hc]
  rw [permute_eq_select (by decide) (by decide), hl]

/-- The places the halves are rotated by in the first `n` rounds. -/
def rotation (n : Nat) : Nat := (Fips46.shifts.take n).sum

theorem rotation_succ (n : Nat) : rotation (n + 1) = rotation n + Fips46.shifts.getD n 0 := by
  rw [rotation, rotation, List.take_add_one, List.sum_append]
  cases h : Fips46.shifts[n]? <;> simp [List.getD_eq_getElem?_getD, h]

theorem getMsbD_cd (key : BitVec 64) (n : Nat) {j : Nat} (hj : j < 28) :
    (Fips46.cd key n).1.getMsbD j = (Fips46.cd key 0).1.getMsbD ((j + rotation n) % 28) ∧
      (Fips46.cd key n).2.getMsbD j = (Fips46.cd key 0).2.getMsbD ((j + rotation n) % 28) := by
  induction n generalizing j with
  | zero => simp [rotation, Nat.mod_eq_of_lt hj]
  | succ n ih =>
    have hm : ((Fips46.shifts.getD n 0 + j) % 28 + rotation n) % 28 = (j + rotation (n + 1)) % 28 := by
      rw [rotation_succ]
      omega
    have ih := ih (Nat.mod_lt (Fips46.shifts.getD n 0 + j) (by omega))
    rw [hm] at ih
    simpa only [Fips46.cd, BitVec.getMsbD_rotateLeft, hj, decide_true, Bool.true_and] using ih

/-- The subkey of one round is the standard's exactly when `PC2` reads the same bits eight
    places further left. -/
theorem subkey_standard_iff (key : BitVec 64) (n : Nat) :
    subkey key n = (Fips46.roundKey key n).setWidth 64 ↔
      ∀ t ∈ Fips46.pc2, (decide (8 ≤ t - 1) &&
        ((Fips46.cd key (n + 1)).1 ++ (Fips46.cd key (n + 1)).2).getMsbD (t - 1 - 8)) =
          ((Fips46.cd key (n + 1)).1 ++ (Fips46.cd key (n + 1)).2).getMsbD (t - 1) := by
  rw [subkey_eq]
  simp only [Fips46.roundKey]
  constructor
  · intro h
    have h := congrArg (BitVec.setWidth 48) h
    rw [BitVec.setWidth_setWidth_of_le _ (by omega), BitVec.setWidth_setWidth_of_le _ (by omega), BitVec.setWidth_eq,
      BitVec.setWidth_eq, select_eq_iff (by decide)] at h
    simpa using h
  · intro h
    refine congrArg (BitVec.setWidth 64) ((select_eq_iff (by decide)).mpr ?_)
    simpa using h

theorem eq_zero_iff {w : Nat} (x : BitVec w) : x = 0#w ↔ ∀ i < w, x.getMsbD i = false := by
  constructor
  · rintro rfl i _
    simp
  · intro h
    apply eq_of_getMsbD
    intro i hi
    rw [h i hi]
    simp

/-- Over the sixteen rounds the first eight bits of `C` are every bit of `C_0`, and the
    bits of `D` that `PC2` reads next are every bit of `D_0`. -/
theorem subkeys_standard_iff (key : BitVec 64) :
    (∀ n < 16, subkey key n = (Fips46.roundKey key n).setWidth 64) ↔ Fips46.cd key 0 = (0#28, 0#28) := by
  simp only [subkey_standard_iff]
  constructor
  · intro h
    have hc : (Fips46.cd key 0).1 = 0#28 := by
      rw [eq_zero_iff]
      intro i hi
      have hcover : ∀ i < 28, ∃ n < 16, ∃ t ∈ Fips46.pc2, t - 1 < 8 ∧ (t - 1 + rotation (n + 1)) % 28 = i := by decide
      obtain ⟨n, hn, t, ht, h8, hi⟩ := hcover i hi
      have hb : ((Fips46.cd key (n + 1)).1 ++ (Fips46.cd key (n + 1)).2).getMsbD (t - 1) =
          (Fips46.cd key 0).1.getMsbD i := by
        rw [BitVec.getMsbD_append, if_neg (by omega), (getMsbD_cd key (n + 1) (by omega)).1, hi]
      rw [← hb, ← h n hn t ht, decide_eq_false (by omega), Bool.false_and]
    have hd : (Fips46.cd key 0).2 = 0#28 := by
      rw [eq_zero_iff]
      intro i hi
      have hcover : ∀ i < 28, ∃ n < 16, ∃ t ∈ Fips46.pc2, 28 ≤ t - 1 ∧ t - 1 < 36 ∧
          (t - 1 - 28 + rotation (n + 1)) % 28 = i := by decide
      obtain ⟨n, hn, t, ht, h28, h36, hi⟩ := hcover i hi
      have hb : ((Fips46.cd key (n + 1)).1 ++ (Fips46.cd key (n + 1)).2).getMsbD (t - 1) =
          (Fips46.cd key 0).2.getMsbD i := by
        rw [BitVec.getMsbD_append, if_pos h28, (getMsbD_cd key (n + 1) (by omega)).2, hi]
      rw [← hb, ← h n hn t ht, BitVec.getMsbD_append, if_neg (by omega), (getMsbD_cd key (n + 1) (by omega)).1, hc]
      simp
    exact Prod.ext hc hd
  · intro h n _ t _
    have hz : (Fips46.cd key (n + 1)).1 = 0#28 ∧ (Fips46.cd key (n + 1)).2 = 0#28 := by
      constructor <;> rw [eq_zero_iff] <;> intro i hi
      · rw [(getMsbD_cd key (n + 1) hi).1, h]
        simp
      · rw [(getMsbD_cd key (n + 1) hi).2, h]
        simp
    simp [hz.1, hz.2]

theorem append_halves (x : BitVec 56) : x.extractLsb' 28 28 ++ x.extractLsb' 0 28 = x := by
  apply BitVec.eq_of_getLsbD_eq
  intro i hi
  simp only [BitVec.getLsbD_append, BitVec.getLsbD_extractLsb']
  by_cases h28 : i < 28
  · simp [h28]
  · simp [h28, show i - 28 < 28 by omega, show 28 + (i - 28) = i by omega]

/-- The bits of the key that `PC1` reads are those outside the parity bits. -/
theorem cd_eq_iff (key key' : BitVec 64) :
    Fips46.cd key 0 = Fips46.cd key' 0 ↔ key &&& 0xfefefefefefefefe#64 = key' &&& 0xfefefefefefefefe#64 := by
  have hs : Fips46.cd key 0 = Fips46.cd key' 0 ↔ select 56 Fips46.pc1 key = select 56 Fips46.pc1 key' := by
    simp only [Fips46.cd, Prod.mk.injEq]
    constructor
    · intro h
      obtain ⟨hc, hd⟩ := h
      rw [← append_halves (select 56 Fips46.pc1 key), hc, hd, append_halves]
    · intro h
      rw [h]
      exact ⟨rfl, rfl⟩
  have hm : ∀ i : Fin 64, (0xfefefefefefefefe#64).getMsbD i = decide (i.val + 1 ∈ Fips46.pc1) := by decide
  rw [hs, select_eq_iff (by decide)]
  constructor
  · intro h
    apply eq_of_getMsbD
    intro i hi
    rw [BitVec.getMsbD_and, BitVec.getMsbD_and, hm ⟨i, hi⟩]
    by_cases ht : i + 1 ∈ Fips46.pc1
    · have hbit := h _ ht
      rw [Nat.add_sub_cancel] at hbit
      rw [hbit]
    · simp [ht]
  · intro h t ht
    have hr : ∀ t ∈ Fips46.pc1, 1 ≤ t ∧ t ≤ 64 := by decide
    obtain ⟨h1, h64⟩ := hr t ht
    have hbit := congrArg (BitVec.getMsbD · (t - 1)) h
    simp only [BitVec.getMsbD_and, hm ⟨t - 1, by omega⟩] at hbit
    simpa [show t - 1 + 1 = t by omega, ht] using hbit

theorem cd_zero_iff (key : BitVec 64) :
    Fips46.cd key 0 = (0#28, 0#28) ↔ key &&& 0xfefefefefefefefe#64 = 0#64 := by
  have hzero : Fips46.cd 0#64 0 = (0#28, 0#28) := by decide +kernel
  rw [← hzero, cd_eq_iff, BitVec.zero_and]

/-! ## The code against the standard -/

theorem setKey_subkeys (d : DES) {key : Bytes} (hk : key.length = 8) (n : Fin 16) :
    (d.setKey key).2.mSubkeys[n] = subkey (ofBytes 64 key) n := by
  simp [DES.setKey, hk, keyExpansion]

/-- The stored subkeys are the round keys of the standard exactly for the keys that are
    zero outside the parity bits, and for these keys every block is encrypted as the
    standard says. -/
theorem des_fips_iff (d : DES) {key : Bytes} (hk : key.length = 8) :
    ((∀ n : Fin 16, (d.setKey key).2.mSubkeys[n] = (Fips46.roundKey (ofBytes 64 key) n).setWidth 64) ↔
        ofBytes 64 key &&& 0xfefefefefefefefe#64 = 0#64) ∧
      (ofBytes 64 key &&& 0xfefefefefefefefe#64 = 0#64 →
        ∀ block : Bytes, block.length = 8 →
          (d.setKey key).2.encryptBlock block = .ok (Fips46.encrypt key block)) := by
  have hiff : (∀ n : Fin 16, (d.setKey key).2.mSubkeys[n] = (Fips46.roundKey (ofBytes 64 key) n).setWidth 64) ↔
      ofBytes 64 key &&& 0xfefefefefefefefe#64 = 0#64 := by
    rw [← cd_zero_iff, ← subkeys_standard_iff]
    constructor
    · intro h n hn
      rw [← h ⟨n, hn⟩, setKey_subkeys d hk]
    · intro h n
      rw [setKey_subkeys d hk, h n n.isLt]
  exact ⟨hiff, fun h block hb => encryptBlock_with (hiff.mpr h) hb⟩

def sampleKey : Bytes := [0x01, 0x23, 0x45, 0x67, 0x89, 0xab, 0xcd, 0xef]

def sampleBlock : Bytes := [0x4e, 0x6f, 0x77, 0x20, 0x69, 0x73, 0x20, 0x74]

theorem des_fips_iff_ones :
    (DES.new.setKey (List.replicate 8 1#8)).2.encryptBlock sampleBlock =
      .ok (Fips46.encrypt (List.replicate 8 1#8) sampleBlock) :=
  (des_fips_iff DES.new List.length_replicate).2 (by decide) sampleBlock (by decide)

/-- The vector of `test_modern.cpp`, which expects the standard's `3fa40e8a984d4815`. -/
theorem des_differs :
    (DES.new.setKey sampleKey).1 = .ok () ∧
      (DES.new.setKey sampleKey).2.encryptBlock sampleBlock ≠ .ok (Fips46.encrypt sampleKey sampleBlock) := by
  decide +kernel

end CryptoChat.Crypto.Des
