/-
  CryptoChat.Crypto.AesFips — the AES encryptor computes the cipher of FIPS 197.

  `sBox_eq` checks the table against the affine map of the field inverse. The bytes
  of a schedule word follow the standard's word operations (`word_subWord`,
  `word_rotate`, `word_rcon`), so after `n` steps of the second expansion loop the
  first `nk + n` words of the array are the standard's (`expandKey_words`), and every
  transformation of the state is the standard's transformation of its view as a
  matrix (`view_subBytes` and the lemmas after it). `encryptBlock_fips` puts them
  together, for any history of `setKey` calls.
-/

import CryptoChat.Crypto.AesInverse

namespace CryptoChat.Crypto.Aes

open CryptoChat.Lib
open CryptoChat.Crypto.Fips197 (fieldPoly)

/-! ## The table -/

/-- The inverse of the standard's affine map. -/
def invAffine (b : Byte) : Byte := b.rotateLeft 1 ^^^ b.rotateLeft 3 ^^^ b.rotateLeft 6 ^^^ 0x05#8

/-- Every entry past the first is the affine image of an inverse of its index. -/
theorem sBoxTable_check :
    (sBoxTable.toList.zip (List.range 256)).all (fun (b, n) =>
      b == Fips197.affine (invAffine b) &&
        (if n = 0 then invAffine b == 0#8 else Fips197.gmul (BitVec.ofNat 8 n) (invAffine b) == 1#8)) = true := by
  decide +kernel

theorem sBox_eq (x : Byte) : sBox x = Fips197.sBox x := by
  have hx : (sBox x, x.toNat) ∈ sBoxTable.toList.zip (List.range 256) := by
    apply List.mem_of_getElem? (i := x.toNat)
    rw [List.getElem?_zip_eq_some]
    exact ⟨getElem?_sBoxTable x, List.getElem?_range x.isLt⟩
  have h := List.all_eq_true.mp sBoxTable_check _ hx
  simp only [Bool.and_eq_true, beq_iff_eq] at h
  obtain ⟨haff, hinv⟩ := h
  have hg : Fips197.ginv x = invAffine (sBox x) := by
    by_cases h0 : x = 0#8
    · subst h0
      rw [Fips197.ginv, Gf2.inv_zero (by omega)]
      exact (by simpa using hinv : invAffine (sBox 0#8) = 0#8).symm
    · have hn : x.toNat ≠ 0 := fun hn => h0 (BitVec.eq_of_toNat_eq (by simpa using hn))
      rw [if_neg hn, beq_iff_eq, BitVec.ofNat_toNat, BitVec.setWidth_eq] at hinv
      exact Gf2.inv_eq (by omega) hinv
  rw [Fips197.sBox, hg, ← haff]

/-! ## Words -/

theorem loadWord_eq (b0 b1 b2 b3 : Byte) : loadWord b0 b1 b2 b3 = ofBytes 32 [b0, b1, b2, b3] := by
  simp [loadWord, ofBytes, BitVec.shiftLeft_or_distrib, ← BitVec.shiftLeft_add]

theorem getLsbD_wordByte (x : BitVec 32) (k : Fin 4) {i : Nat} (hi : i < 8) :
    (wordByte x k).getLsbD i = x.getLsbD (8 * (3 - k) + i) := by
  have h : (0xff#32).getLsbD i = true := by interval_cases i <;> decide
  have he : 24 - 8 * k.val + i = 8 * (3 - k.val) + i := by omega
  rw [wordByte, BitVec.getLsbD_setWidth, BitVec.getLsbD_and, h, BitVec.getLsbD_ushiftRight, he]
  simp [hi]

theorem wordByte_injective {x y : BitVec 32} (h : ∀ k, wordByte x k = wordByte y k) : x = y := by
  apply BitVec.eq_of_getLsbD_eq; intro i hi
  have hk := congrArg (BitVec.getLsbD · (i % 8)) (h ⟨3 - i / 8, by omega⟩)
  have he : 8 * (3 - (3 - i / 8)) + i % 8 = i := by omega
  simpa only [getLsbD_wordByte _ _ (Nat.mod_lt i (by omega : 0 < 8)), he] using hk

theorem wordByte_loadWord (b : Fips197.Word) (k : Fin 4) : wordByte (loadWord (b 0) (b 1) (b 2) (b 3)) k = b k := by
  apply BitVec.eq_of_getLsbD_eq; intro i hi
  have hd : (8 * (3 - k.val) + i) / 8 = 3 - k.val := by omega
  have hm : (8 * (3 - k.val) + i) % 8 = i := by omega
  rw [getLsbD_wordByte _ _ hi, loadWord_eq, getLsbD_ofBytes, hd, hm, decide_eq_true (by omega), Bool.true_and]
  fin_cases k <;> rfl

theorem wordByte_xor (x y : BitVec 32) : wordByte (x ^^^ y) = Fips197.xorWord (wordByte x) (wordByte y) := by
  funext k
  apply BitVec.eq_of_getLsbD_eq; intro i hi
  simp only [Fips197.xorWord, BitVec.getLsbD_xor, getLsbD_wordByte _ _ hi]

theorem wordByte_rotate (x : BitVec 32) : wordByte ((x <<< 8) ||| (x >>> 24)) = Fips197.rotWord (wordByte x) := by
  funext k
  apply BitVec.eq_of_getLsbD_eq; intro i hi
  rw [Fips197.rotWord, Fips197.rotateLeft, getLsbD_wordByte _ _ hi, getLsbD_wordByte _ _ hi, BitVec.getLsbD_or,
    BitVec.getLsbD_shiftLeft, BitVec.getLsbD_ushiftRight]
  by_cases hk : k = 3
  · subst hk
    simp [hi]
  · have hv : (k + 1).val = k.val + 1 := by rw [Fin.val_add_one, if_neg (show k ≠ Fin.last 3 from hk)]
    have he : 8 * (3 - k.val) + i - 8 = 8 * (3 - (k.val + 1)) + i := by omega
    rw [hv, he, BitVec.getLsbD_of_ge x (24 + (8 * (3 - k.val) + i)) (by omega)]
    simp [show 8 * (3 - k.val) + i < 32 by omega, show ¬ 8 * (3 - k.val) + i < 8 by omega]

theorem wordByte_top (b : Byte) : wordByte (b.setWidth 32 <<< 24) = ![b, 0#8, 0#8, 0#8] := by
  funext k
  have h := wordByte_loadWord ![b, 0#8, 0#8, 0#8] k
  have he : loadWord b 0#8 0#8 0#8 = b.setWidth 32 <<< 24 := by simp [loadWord]
  simp only [Matrix.cons_val] at h
  rwa [he] at h

theorem wordByte_subWord (x : BitVec 32) : wordByte (subWord x) = Fips197.subWord (wordByte x) := by
  funext k
  have h := wordByte_loadWord (fun k => sBox (wordByte x k)) k
  exact h.trans (sBox_eq _)

theorem rcon_eq {j : Nat} (h0 : 1 ≤ j) (h1 : j ≤ 10) :
    wordByte ((rcon.getD j 0#8).setWidth 32 <<< 24) = Fips197.rcon j := by
  have h : rcon.getD j 0#8 = (Gf2.xtimes fieldPoly)^[j - 1] 1#8 := by interval_cases j <;> decide
  rw [wordByte_top, h]; rfl

/-! ## The array of words -/

theorem wordByte_getWord (ks : KeySchedule) (i : Fin 60) (k : Fin 4) :
    wordByte (getWord ks i) k = ks[i.val * 4 + k.val] := by
  have h := wordByte_loadWord (fun k => ks[i.val * 4 + k.val]) k
  exact h

theorem getWord_setWord (ks : KeySchedule) (i j : Fin 60) (word : BitVec 32) :
    getWord (setWord ks i word) j = if j = i then word else getWord ks j := by
  apply wordByte_injective
  intro k
  rw [wordByte_getWord]
  by_cases h : j = i
  · subst h
    rw [if_pos rfl]
    fin_cases k <;> simp [setWord]
  · have hv : j.val ≠ i.val := fun e => h (Fin.ext e)
    rw [if_neg h, wordByte_getWord]
    simp [setWord, show i.val * 4 ≠ j.val * 4 + k.val by omega,
      show i.val * 4 + 1 ≠ j.val * 4 + k.val by omega, show i.val * 4 + 2 ≠ j.val * 4 + k.val by omega,
      show i.val * 4 + 3 ≠ j.val * 4 + k.val by omega]

/-- The first `n` words of the array are `w`'s. -/
def Words (ks : KeySchedule) (n : Nat) (w : Nat → Fips197.Word) : Prop :=
  ∀ i : Fin 60, i.val < n → wordByte (getWord ks i) = w i

theorem words_setWord {ks : KeySchedule} {n : Nat} {w : Nat → Fips197.Word} (h : Words ks n w) (hn : n < 60)
    {word : BitVec 32} (hw : wordByte word = w n) : Words (setWord ks ⟨n, hn⟩ word) (n + 1) w := by
  intro i hi
  rw [getWord_setWord]
  by_cases e : i = ⟨n, hn⟩
  · subst e; rw [if_pos rfl]; exact hw
  · rw [if_neg e]
    have : i.val ≠ n := fun h => e (Fin.ext h)
    exact h i (by omega)

/-! ## The schedule -/

theorem keyWord_lt {nk i : Nat} (key : Bytes) (h : i < nk) :
    Fips197.keyWord nk key i = fun k : Fin 4 => key.getD (4 * i + k) 0#8 := by
  rw [Fips197.keyWord, dif_neg (by omega)]

theorem keyWord_ge {nk i : Nat} (key : Bytes) (h0 : 0 < nk) (h : nk ≤ i) :
    Fips197.keyWord nk key i = Fips197.xorWord (Fips197.keyWord nk key (i - nk))
      (if i % nk = 0 then
        Fips197.xorWord (Fips197.subWord (Fips197.rotWord (Fips197.keyWord nk key (i - 1)))) (Fips197.rcon (i / nk))
      else if 6 < nk ∧ i % nk = 4 then Fips197.subWord (Fips197.keyWord nk key (i - 1))
      else Fips197.keyWord nk key (i - 1)) := by
  conv_lhs => rw [Fips197.keyWord]
  rw [dif_pos ⟨h, h0⟩]

theorem loadKey_words (key : Bytes) (nk n : Nat) (hn : n ≤ 60) (hk : n ≤ nk) (ks : KeySchedule) :
    Words (loadKey key n hn ks) n (Fips197.keyWord nk key) := by
  induction n with
  | zero => intro i hi; omega
  | succ n ih =>
    have hs : loadKey key (n + 1) hn ks = setWord (loadKey key n (by omega) ks) ⟨n, by omega⟩
        (loadWord (key.getD (n * 4) 0#8) (key.getD (n * 4 + 1) 0#8) (key.getD (n * 4 + 2) 0#8)
          (key.getD (n * 4 + 3) 0#8)) := by
      simp [loadKey]
    rw [hs]
    refine words_setWord (ih (by omega) (by omega)) (by omega) ?_
    rw [keyWord_lt key (by omega), Nat.mul_comm 4 n]
    funext k
    exact wordByte_loadWord (fun k => key.getD (n * 4 + k.val) 0#8) k

theorem wordByte_expandWord {nk i : Nat} (h0 : 0 < nk) (h : nk ≤ i) (hr : i / nk ≤ 10) (temp : BitVec 32) :
    wordByte (expandWord nk i temp) =
      if i % nk = 0 then
        Fips197.xorWord (Fips197.subWord (Fips197.rotWord (wordByte temp))) (Fips197.rcon (i / nk))
      else if 6 < nk ∧ i % nk = 4 then Fips197.subWord (wordByte temp)
      else wordByte temp := by
  unfold expandWord
  split
  · rw [wordByte_xor, wordByte_subWord, wordByte_rotate, rcon_eq ((Nat.one_le_div_iff h0).mpr h) hr]
  · split
    · exact wordByte_subWord temp
    · rfl

/-- After `n` steps of the second loop the first `nk + n` words are the standard's. -/
theorem expandKey_words (key : Bytes) {nk n : Nat} (h0 : 0 < nk) (hn : nk + n ≤ 60) (hr : nk + n ≤ 11 * nk)
    {ks : KeySchedule} (hks : Words ks nk (Fips197.keyWord nk key)) :
    Words (expandKey nk n hn ks) (nk + n) (Fips197.keyWord nk key) := by
  induction n with
  | zero => exact hks
  | succ n ih =>
    have ih := ih (by omega) (by omega)
    have hs : expandKey nk (n + 1) hn ks =
        setWord (expandKey nk n (by omega) ks) ⟨nk + n, by omega⟩
          (getWord (expandKey nk n (by omega) ks) ⟨nk + n - nk, by omega⟩ ^^^
            expandWord nk (nk + n) (getWord (expandKey nk n (by omega) ks) ⟨nk + n - 1, by omega⟩)) := by
      simp [expandKey]
    rw [hs]
    refine words_setWord ih (by omega) ?_
    have hq : (nk + n) / nk ≤ 10 := Nat.lt_succ_iff.mp (Nat.div_lt_of_lt_mul (by rw [Nat.mul_comm]; omega))
    rw [wordByte_xor, wordByte_expandWord h0 (by omega) hq, ih _ (by show nk + n - nk < nk + n; omega),
      ih _ (by show nk + n - 1 < nk + n; omega), keyWord_ge key h0 (Nat.le_add_right nk n)]

theorem keyExpansion_words (a : AES) (key : Bytes) :
    Words (a.keyExpansion key).mRoundKeys (4 * (a.nr + 1)) (Fips197.keyWord a.nk key) := by
  obtain ⟨-, hnk⟩ := a.nk_cases
  have hr : 4 * (roundsOf a.nk + 1) = 4 * (a.nr + 1) := by
    rw [AES.nr_eq]; rcases hnk with h | h | h <;> rw [h] <;> rfl
  have hnr := a.nr_eq
  have hle : a.nk ≤ 4 * (a.nr + 1) := by omega
  have h := expandKey_words key (by omega) a.totalWords_le (by omega)
    (loadKey_words key a.nk a.nk (nk_le a) (Nat.le_refl _) (Vector.replicate 240 0#8))
  intro i hi
  exact h i (by omega)

/-! ## The state -/

def view (s : State) : Fips197.State := fun r c => s.get r c

theorem view_subBytes (s : State) : view (subBytes s) = Fips197.subBytes (view s) := by
  funext r c
  simp [view, subBytes, Fips197.subBytes, sBox_eq]

theorem view_shiftRows (s : State) : view (shiftRows s) = Fips197.shiftRows (view s) := by
  funext r c
  exact get_shiftRows s r c

theorem view_mixColumns (s : State) : view (mixColumns s) = Fips197.mixColumns (view s) := by
  funext r c
  exact get_mixColumns s r c

theorem view_addRoundKey {ks : KeySchedule} {n : Nat} {w : Nat → Fips197.Word} (h : Words ks n w) (round : Fin 15)
    (hn : 4 * round.val + 4 ≤ n) (s : State) :
    view (addRoundKey ks round s) = Fips197.addRoundKey w round (view s) := by
  funext r c
  have hb := congrFun (h ⟨4 * round.val + c.val, by omega⟩ (by show 4 * round.val + c.val < n; omega)) r
  rw [wordByte_getWord] at hb
  have he : (4 * round.val + c.val) * 4 + r.val = round.val * 16 + c.val * 4 + r.val := by omega
  simp only [he] at hb
  simp [view, addRoundKey, Fips197.addRoundKey, hb]

theorem view_encryptRounds {ks : KeySchedule} {m : Nat} {w : Nat → Fips197.Word} (h : Words ks m w) (n : Nat)
    (hn : n < 15) (hm : 4 * n + 4 ≤ m) (s : State) :
    view (encryptRounds ks n hn (addRoundKey ks 0 s)) = Fips197.rounds w (view s) n := by
  induction n with
  | zero => exact view_addRoundKey h 0 (by simpa using hm) s
  | succ n ih =>
    rw [encryptRounds_succ, view_addRoundKey h _ hm, view_mixColumns, view_shiftRows, view_subBytes,
      ih (by omega) (by omega)]
    rfl

theorem view_encryptState (a : AES) (key : Bytes) (s : State) :
    view ((a.keyExpansion key).encryptState s) =
      Fips197.cipherState (a.nk + 6) (Fips197.keyWord a.nk key) (view s) := by
  have hw := keyExpansion_words a key
  have hnr : (a.keyExpansion key).nr = a.nr := rfl
  simp only [AES.encryptState, hnr]
  rw [view_addRoundKey hw _ (by show 4 * a.nr + 4 ≤ _; omega), view_shiftRows, view_subBytes,
    view_encryptRounds hw _ _ (by omega)]
  rfl

theorem view_loadState (block : Bytes) : view (loadState block) = Fips197.toState block := by
  funext r c
  simp [view, loadState, Fips197.toState, Nat.add_comm, Nat.mul_comm]

theorem storeState_eq (s : State) : storeState s = Fips197.ofState (view s) := by
  simp [storeState, Fips197.ofState, view, List.finRange_succ, List.ofFn_succ]

/-! ## Any history of keys -/

/-- The object after a history of `setKey` calls, those that throw included. -/
def setKeys (a : AES) (keys : List Bytes) : AES := keys.foldl (fun a key => (a.setKey key).2) a

/-- The last accepted key determines the object. -/
theorem setKeys_eq (a : AES) (keys : List Bytes) :
    setKeys a keys = match (keys.filter (·.length = a.mKeySizeBytes)).getLast? with
      | none => a
      | some k => a.keyExpansion k := by
  induction keys using List.reverseRecOn with
  | nil => rfl
  | append_singleton keys key ih =>
    have hs : setKeys a (keys ++ [key]) = ((setKeys a keys).setKey key).2 := by simp [setKeys]
    have hz : (setKeys a keys).mKeySizeBytes = a.mKeySizeBytes := by rw [ih]; split <;> rfl
    rw [hs, List.filter_append, AES.setKey, hz]
    by_cases h : key.length = a.mKeySizeBytes
    · have he : (setKeys a keys).keyExpansion key = a.keyExpansion key := by rw [ih]; split <;> rfl
      simp [h, he]
    · simp [h, ih]

/-- On an object of any of the three key sizes, after any history of `setKey` calls, a
    call with a key of another length throws and changes nothing, and a block is
    encrypted by the standard's cipher under the last accepted key. -/
theorem encryptBlock_fips {s : Nat} (hs : s = 16 ∨ s = 24 ∨ s = 32) :
    ∃ a, AES.new s = .ok a ∧ ∀ keys : List Bytes,
      (∀ key : Bytes, key.length ≠ s → ∃ e, (setKeys a keys).setKey key = (.error e, setKeys a keys)) ∧
      ∀ k, (keys.filter (·.length = s)).getLast? = some k → ∀ p : Bytes, p.length = 16 →
        (setKeys a keys).encryptBlock p = .ok (Fips197.cipher k p) := by
  refine ⟨⟨s, Vector.replicate 240 0#8, hs⟩, by simp [AES.new, hs], ?_⟩
  intro keys
  have hz := setKeys_eq ⟨s, Vector.replicate 240 0#8, hs⟩ keys
  refine ⟨?_, ?_⟩
  · intro key hkey
    have hm : (setKeys ⟨s, Vector.replicate 240 0#8, hs⟩ keys).mKeySizeBytes = s := by rw [hz]; split <;> rfl
    exact ⟨_, if_pos (by rw [hm]; exact hkey)⟩
  · intro k hk p hp
    have hl : k.length = s := by
      have := List.mem_filter.mp (List.mem_of_getLast? hk)
      simpa using this.2
    simp only [hk] at hz
    rw [hz, AES.encryptBlock, if_neg (by simpa using hp), storeState_eq, view_encryptState, view_loadState,
      Fips197.cipher, hl]
    rfl

/-- A 32-byte key, then two rejected ones. -/
theorem encryptBlock_fips_rejected : ∃ a, AES.new 32 = .ok a ∧
    (setKeys a [List.replicate 32 7#8, [], List.replicate 16 1#8]).encryptBlock (List.replicate 16 0#8) =
      .ok (Fips197.cipher (List.replicate 32 7#8) (List.replicate 16 0#8)) := by
  obtain ⟨a, ha, h⟩ := encryptBlock_fips (s := 32) (Or.inr (Or.inr rfl))
  exact ⟨a, ha, (h _).2 _ (by decide) _ (by decide)⟩

end CryptoChat.Crypto.Aes
