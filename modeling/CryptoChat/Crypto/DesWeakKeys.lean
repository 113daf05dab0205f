/-
  CryptoChat.Crypto.DesWeakKeys — the keys of which one decrypts what another encrypts.

  The decryptor is the encryptor with the subkeys in the opposite order, so a key whose
  subkeys are another's in that order undoes it. The rotations of the first `n` rounds and
  of the first `17 - n` come to 29, so that happens exactly where `C_0` and `D_0` repeat
  every two bits and the other key's are theirs, rotated by one. The bits that the code's
  `PC2` leaves out (see `DesSchedule`) change nothing in this: the four keys that are their
  own opposite and the six pairs are those of the standard (`dual_keys`), and `setKey`
  takes them all.
-/

import CryptoChat.Crypto.DesSchedule

namespace CryptoChat.Crypto.Des

open CryptoChat.Lib CryptoChat.Lib.BitSelect

/-! ## Halves that repeat every two bits -/

theorem getMsbD_mod_two {c : BitVec 28} (h : c.rotateLeft 2 = c) {i : Nat} (hi : i < 28) :
    c.getMsbD i = c.getMsbD (i % 2) := by
  induction i using Nat.strong_induction_on with
  | h i ih =>
    by_cases hlow : i < 2
    · rw [Nat.mod_eq_of_lt hlow]
    · have hstep : c.getMsbD (i - 2) = c.getMsbD i := by
        conv_lhs => rw [← h]
        have hback : (2 + (i - 2)) % 28 = i := by omega
        rw [BitVec.getMsbD_rotateLeft, hback, decide_eq_true (show i - 2 < 28 by omega), Bool.true_and]
      have hmod : (i - 2) % 2 = i % 2 := by omega
      rw [← hstep, ih (i - 2) (by omega) (by omega), hmod]

/-- The half that repeats the bits `a`, `b`. -/
def repeating : Bool → Bool → BitVec 28
  | false, false => 0x0000000#28
  | false, true => 0x5555555#28
  | true, false => 0xaaaaaaa#28
  | true, true => 0xfffffff#28

theorem repeating_spec : ∀ a b, (repeating a b).rotateLeft 2 = repeating a b ∧
    (repeating a b).rotateLeft 1 = repeating b a ∧ (repeating a b).getMsbD 0 = a ∧ (repeating a b).getMsbD 1 = b := by
  decide

theorem repeats_iff (c : BitVec 28) : c.rotateLeft 2 = c ↔ ∃ a b, c = repeating a b := by
  constructor
  · intro h
    refine ⟨c.getMsbD 0, c.getMsbD 1, ?_⟩
    obtain ⟨hrepeats, -, h0, h1⟩ := repeating_spec (c.getMsbD 0) (c.getMsbD 1)
    apply eq_of_getMsbD
    intro i hi
    rw [getMsbD_mod_two h hi, getMsbD_mod_two hrepeats hi]
    rcases Nat.mod_two_eq_zero_or_one i with hmod | hmod
    · rw [hmod, h0]
    · rw [hmod, h1]
  · rintro ⟨a, b, rfl⟩
    exact (repeating_spec a b).1

set_option maxRecDepth 2000 in
theorem rotation_opposite : ∀ n < 16, rotation (n + 1) + rotation (16 - n) = 29 := by decide

/-- Where a table takes the bit `i` of a half in the round `n`. -/
def placeOf (i n : Nat) : Nat := (i + 56 - rotation n) % 28

theorem placeOf_add {i n : Nat} (hi : i < 28) (hn : n < 16) : (placeOf i (n + 1) + rotation (n + 1)) % 28 = i := by
  have hsum := rotation_opposite n hn
  unfold placeOf
  omega

/-- Every bit comes under the places in some round, and together with the bit two places on,
    where the opposite rounds read one and the same. -/
structure Covers (places : List Nat) : Prop where
  all : ∀ j < 28, ∃ n < 16, placeOf j (16 - n) ∈ places
  two : ∀ i < 28, ∃ n < 16, ∃ m < 16, placeOf i (n + 1) ∈ places ∧ placeOf ((2 + i) % 28) (m + 1) ∈ places ∧
    (placeOf i (n + 1) + rotation (16 - n)) % 28 = (placeOf ((2 + i) % 28) (m + 1) + rotation (16 - m)) % 28

/-- Two halves whose bits under the places of a table agree in opposite rounds. -/
theorem opposite_half {places : List Nat} {c c' : BitVec 28} (hcovers : Covers places) :
    (∀ p ∈ places, ∀ n < 16,
      c.getMsbD ((p + rotation (n + 1)) % 28) = c'.getMsbD ((p + rotation (16 - n)) % 28)) ↔
        c.rotateLeft 2 = c ∧ c' = c.rotateLeft 1 := by
  -- the two places are of one parity
  have hsame (h : c.rotateLeft 2 = c) {n : Nat} (hn : n < 16) (p : Nat) :
      c.getMsbD ((p + rotation (n + 1)) % 28) = c.getMsbD ((1 + (p + rotation (16 - n)) % 28) % 28) := by
    have hsum := rotation_opposite n hn
    have hmod : (p + rotation (n + 1)) % 28 % 2 = (1 + (p + rotation (16 - n)) % 28) % 28 % 2 := by omega
    rw [getMsbD_mod_two h (Nat.mod_lt _ (by decide)), hmod, ← getMsbD_mod_two h (Nat.mod_lt _ (by decide))]
  constructor
  · intro h
    have hrepeats : c.rotateLeft 2 = c := by
      apply eq_of_getMsbD
      intro i hi
      obtain ⟨n, hn, m, hm, hp, hq, heq⟩ := hcovers.two i hi
      have hpn := h _ hp n hn
      have hqm := h _ hq m hm
      rw [placeOf_add hi hn, heq] at hpn
      rw [placeOf_add (Nat.mod_lt _ (by decide)) hm] at hqm
      rw [BitVec.getMsbD_rotateLeft, decide_eq_true hi, Bool.true_and, hqm, hpn]
    refine ⟨hrepeats, ?_⟩
    apply eq_of_getMsbD
    intro j hj
    obtain ⟨n, hn, hp⟩ := hcovers.all j hj
    have hround : 16 - n = 15 - n + 1 := by omega
    have hpj : (placeOf j (16 - n) + rotation (16 - n)) % 28 = j := by
      rw [hround]
      exact placeOf_add hj (by omega)
    have hpn := h _ hp n hn
    rw [hsame hrepeats hn, hpj] at hpn
    rw [BitVec.getMsbD_rotateLeft, decide_eq_true hj, Bool.true_and, hpn]
  · rintro ⟨hrepeats, rfl⟩ p - n hn
    rw [hsame hrepeats hn p, BitVec.getMsbD_rotateLeft, decide_eq_true (Nat.mod_lt _ (by decide)), Bool.true_and]

/-! ## Subkeys in the opposite order -/

/-- The places of `C`, and of `D`, that `PC2` takes a bit from, as the code reads it. -/
def placesC : List Nat := (Fips46.pc2.filter fun t => 8 ≤ t - 1 && t - 1 - 8 < 28).map fun t => t - 1 - 8

def placesD : List Nat := (Fips46.pc2.filter fun t => 28 ≤ t - 1 - 8).map fun t => t - 1 - 8 - 28

theorem subkey_opposite_iff (key key' : BitVec 64) {n : Nat} (hn : n < 16) :
    subkey key n = subkey key' (15 - n) ↔
      (∀ p ∈ placesC, (Fips46.cd key 0).1.getMsbD ((p + rotation (n + 1)) % 28) =
        (Fips46.cd key' 0).1.getMsbD ((p + rotation (16 - n)) % 28)) ∧
      ∀ p ∈ placesD, (Fips46.cd key 0).2.getMsbD ((p + rotation (n + 1)) % 28) =
        (Fips46.cd key' 0).2.getMsbD ((p + rotation (16 - n)) % 28) := by
  have hround : 15 - n + 1 = 16 - n := by omega
  have hpc2 : ∀ t ∈ Fips46.pc2, t ≤ 56 := by decide
  rw [subkey_eq_iff, hround]
  constructor
  · intro h
    constructor
    · intro p hp
      obtain ⟨t, ht, rfl⟩ := List.mem_map.mp hp
      simp only [List.mem_filter, Bool.and_eq_true, decide_eq_true_eq] at ht
      obtain ⟨ht, h8, h28⟩ := ht
      have hbit := h t ht h8
      rwa [BitVec.getMsbD_append, BitVec.getMsbD_append, if_neg (by omega), if_neg (by omega),
        (getMsbD_cd key (n + 1) h28).1, (getMsbD_cd key' (16 - n) h28).1] at hbit
    · intro p hp
      obtain ⟨t, ht, rfl⟩ := List.mem_map.mp hp
      simp only [List.mem_filter, decide_eq_true_eq] at ht
      obtain ⟨ht, h28⟩ := ht
      have h56 := hpc2 t ht
      have hlt : t - 1 - 8 - 28 < 28 := by omega
      have hbit := h t ht (by omega)
      rwa [BitVec.getMsbD_append, BitVec.getMsbD_append, if_pos h28, if_pos h28,
        (getMsbD_cd key (n + 1) hlt).2, (getMsbD_cd key' (16 - n) hlt).2] at hbit
  · rintro ⟨hc, hd⟩ t ht h8
    have h56 := hpc2 t ht
    by_cases h28 : 28 ≤ t - 1 - 8
    · have hlt : t - 1 - 8 - 28 < 28 := by omega
      rw [BitVec.getMsbD_append, BitVec.getMsbD_append, if_pos h28, if_pos h28,
        (getMsbD_cd key (n + 1) hlt).2, (getMsbD_cd key' (16 - n) hlt).2]
      exact hd _ (List.mem_map.mpr ⟨t, List.mem_filter.mpr ⟨ht, decide_eq_true h28⟩, rfl⟩)
    · have hlt : t - 1 - 8 < 28 := by omega
      rw [BitVec.getMsbD_append, BitVec.getMsbD_append, if_neg h28, if_neg h28,
        (getMsbD_cd key (n + 1) hlt).1, (getMsbD_cd key' (16 - n) hlt).1]
      exact hc _ (List.mem_map.mpr ⟨t, List.mem_filter.mpr ⟨ht, by simp [h8, hlt]⟩, rfl⟩)

instance (places : List Nat) : Decidable (Covers places) :=
  decidable_of_iff (_ ∧ _) ⟨fun h => ⟨h.1, h.2⟩, fun h => ⟨h.all, h.two⟩⟩

theorem covers_places : Covers placesC ∧ Covers placesD := by decide

theorem subkeys_opposite_iff (key key' : BitVec 64) : (∀ n < 16, subkey key n = subkey key' (15 - n)) ↔
    ((Fips46.cd key 0).1.rotateLeft 2 = (Fips46.cd key 0).1 ∧
      (Fips46.cd key' 0).1 = (Fips46.cd key 0).1.rotateLeft 1) ∧
    (Fips46.cd key 0).2.rotateLeft 2 = (Fips46.cd key 0).2 ∧
      (Fips46.cd key' 0).2 = (Fips46.cd key 0).2.rotateLeft 1 := by
  have hc := @opposite_half placesC (Fips46.cd key 0).1 (Fips46.cd key' 0).1 covers_places.1
  have hd := @opposite_half placesD (Fips46.cd key 0).2 (Fips46.cd key' 0).2 covers_places.2
  rw [← hc, ← hd]
  constructor
  · intro h
    exact ⟨fun p hp n hn => ((subkey_opposite_iff key key' hn).mp (h n hn)).1 p hp,
      fun p hp n hn => ((subkey_opposite_iff key key' hn).mp (h n hn)).2 p hp⟩
  · rintro ⟨hc, hd⟩ n hn
    exact (subkey_opposite_iff key key' hn).mpr ⟨fun p hp => hc p hp n hn, fun p hp => hd p hp n hn⟩

/-! ## The keys -/

/-- Every other byte of a key, as the bits of `C` and of `D` that are read from it: in the first
    half of the key, and in the second. -/
def bytesOf : Bool → Bool → Byte × Byte
  | false, false => (0x00#8, 0x00#8)
  | false, true => (0x1e#8, 0x0e#8)
  | true, false => (0xe0#8, 0xf0#8)
  | true, true => (0xfe#8, 0xfe#8)

/-- A key without its parity bits. -/
def alternating (u v : Byte × Byte) : Bytes := [u.1, v.1, u.1, v.1, u.2, v.2, u.2, v.2]

/-- The one key undoes the other: they alternate the same bytes, in opposite orders. -/
def Dual (key key' : Bytes) : Prop := ∃ c d c' d', withoutParity key = alternating (bytesOf c d) (bytesOf c' d') ∧
  withoutParity key' = alternating (bytesOf c' d') (bytesOf c d)

instance (key key' : Bytes) : Decidable (Dual key key') := by
  unfold Dual
  infer_instance

set_option maxRecDepth 1000 in
theorem cd_alternating : ∀ c d c' d', Fips46.cd (ofBytes 64 (alternating (bytesOf c d) (bytesOf c' d'))) 0 =
    (repeating c' c, repeating d' d) := by decide

/-- The bits that count are those of `C_0` and `D_0`. -/
theorem withoutParity_eq_alternating {key : Bytes} (hk : key.length = 8) (c d c' d' : Bool) :
    withoutParity key = alternating (bytesOf c d) (bytesOf c' d') ↔
      Fips46.cd (ofBytes 64 key) 0 = (repeating c' c, repeating d' d) := by
  have hclear : ∀ c d c' d', withoutParity (alternating (bytesOf c d) (bytesOf c' d')) =
      alternating (bytesOf c d) (bytesOf c' d') := by decide
  rw [← cd_alternating, cd_eq_iff, ← withoutParity_eq_iff hk rfl, hclear]

theorem opposite_iff {key key' : Bytes} (hk : key.length = 8) (hk' : key'.length = 8) :
    (∀ n < 16, subkey (ofBytes 64 key) n = subkey (ofBytes 64 key') (15 - n)) ↔ Dual key key' := by
  simp only [subkeys_opposite_iff, Dual, withoutParity_eq_alternating hk, withoutParity_eq_alternating hk']
  constructor
  · rintro ⟨⟨hc, hc'⟩, hd, hd'⟩
    obtain ⟨c', c, hcs⟩ := (repeats_iff _).mp hc
    obtain ⟨d', d, hds⟩ := (repeats_iff _).mp hd
    rw [hcs, (repeating_spec c' c).2.1] at hc'
    rw [hds, (repeating_spec d' d).2.1] at hd'
    exact ⟨c, d, c', d', Prod.ext hcs hds, Prod.ext hc' hd'⟩
  · rintro ⟨c, d, c', d', hcd, hcd'⟩
    obtain ⟨hc, hc', -⟩ := repeating_spec c' c
    obtain ⟨hd, hd', -⟩ := repeating_spec d' d
    rw [hcd, hcd']
    exact ⟨⟨hc, hc'.symm⟩, hd, hd'.symm⟩

/-! ## Blocks -/

theorem encrypt_of_opposite {d d' : DES} (h : ∀ n, d'.mSubkeys.get n = d.mSubkeys.get n.rev) {block : Bytes}
    (hb : block.length = 8) : d'.encryptBlock block = d.decryptBlock block := by
  have hround : d'.round = fun lr n => d.round lr n.rev := by
    funext lr n
    show (lr.2, lr.1 ^^^ feistel lr.2 (d'.mSubkeys.get n)) = _
    rw [h n]
    rfl
  rw [encryptBlock_ok d' hb, decryptBlock_ok d hb, List.finRange_reverse, List.foldl_map, hround]

/-- The four weak keys and the six pairs: for every two keys, and for every block. -/
theorem dual_keys (d d' : DES) {key key' : Bytes} (hk : key.length = 8) (hk' : key'.length = 8) :
    ((∀ n : Fin 16, (d.setKey key).2.mSubkeys[n] = (d'.setKey key').2.mSubkeys[n.rev]) ↔ Dual key key') ∧
      (Dual key key' → ∀ block : Bytes, block.length = 8 →
        (d'.setKey key').2.encryptBlock block = (d.setKey key).2.decryptBlock block) := by
  have hiff : (∀ n : Fin 16, (d.setKey key).2.mSubkeys[n] = (d'.setKey key').2.mSubkeys[n.rev]) ↔ Dual key key' := by
    rw [← opposite_iff hk hk']
    constructor
    · intro h n hn
      have hrev : ((⟨n, hn⟩ : Fin 16).rev).val = 15 - n := by
        show 16 - (n + 1) = 15 - n
        omega
      rw [← setKey_subkeys d hk ⟨n, hn⟩, h ⟨n, hn⟩, setKey_subkeys d' hk', hrev]
    · intro h n
      rw [setKey_subkeys d hk, h n n.isLt, setKey_subkeys d' hk', Fin.val_rev]
      congr 1
      omega
  refine ⟨hiff, ?_⟩
  intro hdual block hb
  refine encrypt_of_opposite ?_ hb
  intro n
  have hopposite := hiff.mpr hdual n.rev
  simp only [Fin.rev_rev] at hopposite
  exact hopposite.symm

theorem dual_keys_pair :
    (DES.new.setKey [0xfe, 0x01, 0xfe, 0x01, 0xfe, 0x01, 0xfe, 0x01]).2.encryptBlock sampleBlock =
      (DES.new.setKey [0x01, 0xfe, 0x01, 0xfe, 0x01, 0xfe, 0x01, 0xfe]).2.decryptBlock sampleBlock :=
  (dual_keys DES.new DES.new (by decide) (by decide)).2 ⟨false, false, true, true, by decide, by decide⟩ sampleBlock
    (by decide)

end CryptoChat.Crypto.Des
