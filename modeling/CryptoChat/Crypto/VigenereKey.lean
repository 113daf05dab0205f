/-
  CryptoChat.Crypto.VigenereKey — which keys of the Vigenere cipher act as their letters do.

  The code takes every character of the key as a letter. A law for the letters alone then
  asks two things of the others. None may push a letter out of its alphabet, which of the
  characters that are no letters only `[` does not, with its shift of 26. And the key with
  them must give the shifts of the key without them, at every place: over as many places as
  both lengths divide, the sums of the shifts agree, so the lengths are the same or all
  shifts are 0 (`letters_or_zero`).
-/

import CryptoChat.Crypto.Vigenere

namespace CryptoChat.Crypto.Classic.Vigenere

open CryptoChat.Lib Ctype CountedMap

/-- The letters of a key, in upper case. -/
def normalize (key : Bytes) : Bytes := (key.filter isalpha).map toupper

structure Normalizes (key : Bytes) : Prop where
  law : (∃ c ∈ key, isalpha c) → ∀ text, encrypt key text = encrypt (normalize key) text ∧
    decrypt key text = decrypt (normalize key) text
  divides : ∀ text, encrypt key text ≠ none ∧ decrypt key text ≠ none

/-- No letters, letters only, or nothing but shifts of 0 and 26. -/
def Uniform (key : Bytes) : Prop :=
  (∀ c ∈ key, ¬ isalpha c) ∨ (∀ c ∈ key, isalpha c) ∨ ∀ c ∈ key, c = chr 'A' ∨ c = chr 'a' ∨ c = chr '['

/-! ## The residue of a character -/

def residue (c : Byte) : ZMod 26 := shift c

set_option maxRecDepth 4000 in
theorem shift_toupper : ∀ c : Byte, shift (toupper c) = shift c := by
  decide

set_option maxRecDepth 4000 in
theorem isalpha_toupper : ∀ c : Byte, isalpha c → isalpha (toupper c) := by
  decide

set_option maxRecDepth 4000 in
theorem letter_of_shift : ∀ c : Byte, 0 ≤ shift c → shift c ≤ 26 → isalpha c ∨ c = chr '[' := by
  decide

/-- What keeps `A` and `B` in their alphabet, both ways. -/
theorem letter_of_upper {c : Byte} (h : ∀ ch ∈ ascii ['A', 'B'],
    isupper (letter ch ((place ch + shift c).tmod 26)) ∧ isupper (letter ch ((place ch - shift c + 26).tmod 26))) :
    isalpha c ∨ c = chr '[' := by
  have hboth (ch : Byte) (hm : ch ∈ ascii ['A', 'B']) (hch : isupper ch) :
      (0 ≤ place ch + shift c ∨ 26 ∣ place ch + shift c) ∧
        (0 ≤ place ch - shift c + 26 ∨ 26 ∣ place ch - shift c + 26) := by
    rw [← tmod_nonneg_iff, ← tmod_nonneg_iff]
    exact ⟨nonneg_of_isupper hch (h ch hm).1 (tmod_bounds _).1, nonneg_of_isupper hch (h ch hm).2 (tmod_bounds _).1⟩
  have hA := hboth (chr 'A') (by decide) (by decide)
  have hB := hboth (chr 'B') (by decide) (by decide)
  have hplaceA : place (chr 'A') = 0 := by decide
  have hplaceB : place (chr 'B') = 1 := by decide
  rw [hplaceA] at hA
  rw [hplaceB] at hB
  exact letter_of_shift c (by omega) (by omega)

set_option maxRecDepth 4000 in
theorem residue_eq_zero : ∀ c : Byte, isalpha c ∨ c = chr '[' →
    (residue c = 0 ↔ c = chr 'A' ∨ c = chr 'a' ∨ c = chr '[') := by
  decide

variable {key : Bytes}

theorem inRange_of_mem (h : ∀ c ∈ key, isalpha c ∨ c = chr '[') : InRange key := by
  intro c hm
  rcases h c hm with hc | rfl
  · have hone : InRange [c] := inRange_letters (by simpa using hc)
    exact hone c List.mem_cons_self
  · decide

theorem inRange_normalize (key : Bytes) : InRange (normalize key) := by
  apply inRange_letters
  intro c hm
  obtain ⟨d, hd, rfl⟩ := List.mem_map.mp hm
  exact isalpha_toupper d (List.mem_filter.mp hd).2

theorem normalize_ne_nil (h : ∃ c ∈ key, isalpha c) : normalize key ≠ [] := by
  obtain ⟨c, hm, hc⟩ := h
  exact List.ne_nil_of_mem (List.mem_map_of_mem (List.mem_filter.mpr ⟨hm, hc⟩))

/-! ## Keys with the same residues -/

theorem same_of_residue {key key' : Bytes} (hne : key ≠ []) (hne' : key' ≠ []) (hrange : InRange key)
    (hrange' : InRange key') (h : ∀ n, residue (keyAt key n) = residue (keyAt key' n)) (text : Bytes) :
    encrypt key text = encrypt key' text ∧ decrypt key text = decrypt key' text := by
  unfold residue at h
  constructor
  · rw [encrypt_eq hne hrange, encrypt_eq hne' hrange']
    simp only [h]
  · rw [decrypt_eq hne hrange, decrypt_eq hne' hrange']
    simp only [h]

theorem law_of_uniform (hletter : ∃ c ∈ key, isalpha c) (h : Uniform key) (text : Bytes) :
    encrypt key text = encrypt (normalize key) text ∧ decrypt key text = decrypt (normalize key) text := by
  have hne : key ≠ [] := List.ne_nil_of_mem hletter.choose_spec.1
  have hne' := normalize_ne_nil hletter
  rcases h with hnone | hall | hzero
  · obtain ⟨c, hm, hc⟩ := hletter
    exact absurd hc (hnone c hm)
  · refine same_of_residue hne hne' (inRange_letters hall) (inRange_normalize key) (fun n => ?_) text
    have hkey : normalize key = key.map toupper := by
      rw [normalize, List.filter_eq_self.mpr hall]
    have hat : keyAt (normalize key) n = toupper (keyAt key n) := by
      have hget := getElem?_keyAt hne' n
      rw [hkey, List.getElem?_map, List.length_map, getElem?_keyAt hne n, ← hkey] at hget
      exact (Option.some.inj hget).symm
    rw [residue, residue, hat, shift_toupper]
  · have hmem : ∀ c ∈ key, isalpha c ∨ c = chr '[' := by
      intro c hm
      rcases hzero c hm with rfl | rfl | rfl
      · exact .inl (by decide)
      · exact .inl (by decide)
      · exact .inr rfl
    have hleft (c : Byte) (hm : c ∈ key) : residue c = 0 := (residue_eq_zero c (hmem c hm)).mpr (hzero c hm)
    refine same_of_residue hne hne' (inRange_of_mem hmem) (inRange_normalize key) (fun n => ?_) text
    obtain ⟨d, hd, hat⟩ := List.mem_map.mp (keyAt_mem hne' n)
    rw [hleft _ (keyAt_mem hne n), residue, ← hat, shift_toupper]
    exact (hleft d (List.mem_filter.mp hd).1).symm

/-! ## What the law asks -/

/-- The law on texts of one letter only. -/
theorem mem_of_law (hne : key ≠ []) (hne' : normalize key ≠ []) (hlaw : ∀ text,
    encrypt key text = encrypt (normalize key) text ∧ decrypt key text = decrypt (normalize key) text) :
    ∀ c ∈ key, isalpha c ∨ c = chr '[' := by
  intro c hm
  obtain ⟨i, hi, rfl⟩ := List.getElem_of_mem hm
  have hat : keyAt key i = key[i] := by
    rw [keyAt, Nat.mod_eq_of_lt hi, List.getD_eq_getElem _ _ hi]
  apply letter_of_upper
  intro ch hch
  have hupper : isupper ch ∧ isalpha ch := by
    revert ch
    decide
  obtain ⟨henc, hdec⟩ := hlaw (List.replicate (i + 1) ch)
  rw [encrypt, walk_eq hne, encrypt_eq hne' (inRange_normalize key), Option.some.injEq] at henc
  rw [decrypt, walk_eq hne, decrypt_eq hne' (inRange_normalize key), Option.some.injEq] at hdec
  have henc := congrArg (·[i]?) henc
  have hdec := congrArg (·[i]?) hdec
  simp only [getElem?_countedMap_replicate hupper.2, hat, Option.some.injEq] at henc hdec
  rw [henc, hdec, isupper_rotate, isupper_rotate]
  exact ⟨hupper.1, hupper.1⟩

theorem residue_of_law (hne : key ≠ []) (hne' : normalize key ≠ []) (hrange : InRange key)
    (hlaw : ∀ text, encrypt key text = encrypt (normalize key) text) (n : Nat) :
    residue (keyAt key n) = residue (keyAt (normalize key) n) := by
  have h := hlaw (List.replicate (n + 1) (chr 'A'))
  rw [encrypt_eq hne hrange, encrypt_eq hne' (inRange_normalize key), Option.some.injEq] at h
  have h := congrArg (·[n]?) h
  have hA : isalpha (chr 'A') := by decide
  simp only [getElem?_countedMap_replicate hA, Option.some.injEq] at h
  exact rotate_injective hA h

/-! ## Sums of residues -/

theorem sum_getD (v : Byte → Nat) (l : Bytes) : ∑ i ∈ Finset.range l.length, v (l.getD i 0#8) = (l.map v).sum := by
  induction l with
  | nil => rfl
  | cons c l ih =>
    rw [List.length_cons, Finset.sum_range_succ', List.map_cons, List.sum_cons, ← ih, Nat.add_comm]
    rfl

/-- Over whole rounds of the key. -/
theorem sum_keyAt (v : Byte → Nat) (key : Bytes) (m : Nat) :
    ∑ i ∈ Finset.range (key.length * m), v (keyAt key i) = m * (key.map v).sum := by
  induction m with
  | zero => simp
  | succ m ih =>
    have hround : ∑ i ∈ Finset.range key.length, v (keyAt key (key.length * m + i)) = (key.map v).sum := by
      rw [← sum_getD]
      refine Finset.sum_congr rfl fun i hi => ?_
      rw [keyAt, Nat.mul_add_mod, Nat.mod_eq_of_lt (Finset.mem_range.mp hi)]
    rw [Nat.mul_succ, Finset.sum_range_add, ih, hround, Nat.succ_mul]

/-- Characters with residue 0 do not count. -/
theorem sum_normalize (h : ∀ c ∈ key, isalpha c ∨ c = chr '[') :
    ((normalize key).map fun c => (residue c).val).sum = (key.map fun c => (residue c).val).sum := by
  induction key with
  | nil => rfl
  | cons c key ih =>
    have htail := ih fun d hd => h d (List.mem_cons_of_mem c hd)
    by_cases hc : isalpha c
    · have hcons : normalize (c :: key) = toupper c :: normalize key := by simp [normalize, hc]
      rw [hcons, List.map_cons, List.sum_cons, htail, List.map_cons, List.sum_cons, residue, shift_toupper, residue]
    · have hcons : normalize (c :: key) = normalize key := by simp [normalize, hc]
      obtain rfl : c = chr '[' := (h c List.mem_cons_self).resolve_left hc
      have hzero : (residue (chr '[')).val = 0 := by decide
      rw [hcons, htail, List.map_cons, List.sum_cons, hzero, Nat.zero_add]

theorem letters_or_zero (hmem : ∀ c ∈ key, isalpha c ∨ c = chr '[')
    (h : ∀ n, residue (keyAt key n) = residue (keyAt (normalize key) n)) :
    (∀ c ∈ key, isalpha c) ∨ ∀ c ∈ key, residue c = 0 := by
  have hrounds := sum_keyAt (fun c => (residue c).val) key (normalize key).length
  have hrounds' := sum_keyAt (fun c => (residue c).val) (normalize key) key.length
  simp only [h, Nat.mul_comm key.length] at hrounds
  rw [hrounds, sum_normalize hmem] at hrounds'
  rcases Nat.eq_zero_or_pos (key.map fun c => (residue c).val).sum with hzero | hpos
  · refine .inr fun c hm => ?_
    rw [← ZMod.val_eq_zero]
    exact List.sum_eq_zero_iff.mp hzero _ (List.mem_map_of_mem hm)
  · have hlen : (normalize key).length = key.length := Nat.eq_of_mul_eq_mul_right hpos hrounds'
    rw [normalize, List.length_map, List.length_filter_eq_length_iff] at hlen
    exact .inl hlen

/-- For every key. -/
theorem normalizes_iff (key : Bytes) : Normalizes key ↔ key ≠ [] ∧ Uniform key := by
  constructor
  · intro h
    have hne : key ≠ [] := by
      rintro rfl
      exact (h.divides (ascii "A".toList)).1 rfl
    refine ⟨hne, ?_⟩
    by_cases hletter : ∃ c ∈ key, isalpha c
    · have hne' := normalize_ne_nil hletter
      have hlaw := h.law hletter
      have hmem := mem_of_law hne hne' hlaw
      have hres := residue_of_law hne hne' (inRange_of_mem hmem) fun text => (hlaw text).1
      rcases letters_or_zero hmem hres with hall | hzero
      · exact .inr (.inl hall)
      · exact .inr (.inr fun c hm => (residue_eq_zero c (hmem c hm)).mp (hzero c hm))
    · exact .inl fun c hm hc => hletter ⟨c, hm, hc⟩
  · intro hboth
    obtain ⟨hne, hall⟩ := hboth
    refine ⟨fun hletter text => law_of_uniform hletter hall text, fun text => ?_⟩
    rw [encrypt, decrypt, walk_eq hne, walk_eq hne]
    exact ⟨Option.some_ne_none _, Option.some_ne_none _⟩

/-- The key of the tests and two letters: the blank after the `k` shifts the second. -/
theorem normalizes_blanks : ¬ ∀ key, Normalizes key := by
  intro h
  have hlaw := (h (ascii "k e y 123 !".toList)).law ⟨chr 'k', by decide, by decide⟩ (ascii "AA".toList)
  exact absurd hlaw.1 (by decide)

end CryptoChat.Crypto.Classic.Vigenere
