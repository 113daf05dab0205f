/-
  CryptoChat.Crypto.Affine — the affine cipher of `classic/Affine.cpp`.

  The three remainders of a letter's way there and back keep the sign of what they divide,
  and nothing corrects a negative one but the `+ 26` of `decrypt`, which makes up for no
  more than 26. `Sound` is what a letter needs: its sum in `encrypt` is not negative or
  leaves 0 (26 divides `b`, at the letter `A`), and `b` is not over 26. A negative `a`
  that the constructor lets through has no inverse for the code, so `decrypt` throws.

  `meets_iff`: for `a` and `b` in range these are the only failures.
-/

import CryptoChat.Crypto.Classic
import CryptoChat.Crypto.Utils

namespace CryptoChat.Crypto.Classic

open CryptoChat.Lib Ctype CheckedInt

/-! ## The code -/

structure Affine where
  m_a : Int
  m_b : Int
  coprime : Utils.gcd m_a 26 = 1

namespace Affine

/-- The constructor. -/
def new (a b : Int) : Except Fault Affine :=
  if h : Utils.gcd a 26 = 1 then .ok ⟨a, b, h⟩
  else throw (.invalidArgument "Invalid 'a' value: must be coprime with 26")

def encryptChar (affine : Affine) (ch : Byte) : Except Fault Byte := do
  if isalpha ch then
    let x ← add (← mul affine.m_a (place ch)) affine.m_b
    return letter ch (x.tmod 26)
  else return ch

def encrypt (affine : Affine) (plaintext : Bytes) : Except Fault Bytes := plaintext.mapM affine.encryptChar

def decryptChar (affine : Affine) (a_inv : Int) (ch : Byte) : Except Fault Byte := do
  if isalpha ch then
    let x ← add (← sub (place ch) affine.m_b) 26
    let y ← mul a_inv (x.tmod 26)
    return letter ch (y.tmod 26)
  else return ch

def decrypt (affine : Affine) (ciphertext : Bytes) : Except Fault Bytes := do
  let a_inv ← Utils.modInverse affine.m_a 26
  if a_inv = -1 then throw (.runtimeError "Modular inverse for the given 'a' does not exist.")
  ciphertext.mapM (affine.decryptChar a_inv)

/-! ## What is asked -/

def Meets (affine : Affine) : Prop :=
  ∀ text, ∃ ciphertext, affine.encrypt text = .ok ciphertext ∧ Kept text ciphertext ∧ affine.decrypt ciphertext = .ok text

/-- Each letter stays in its alphabet, there and back. -/
def Sound (a b : Int) : Prop := 0 ≤ b ∧ b ≤ 26 ∨ b < 0 ∧ 26 ∣ b ∧ 0 ≤ a + b

/-! ## Places -/

/-- Where `encrypt` puts the letter at place `y`. -/
def there (a b y : Int) : Int := (a * y + b).tmod 26

/-- Where `decrypt` puts the letter at place `v`. -/
def back (b a_inv v : Int) : Int := (a_inv * (v - b + 26).tmod 26).tmod 26

theorem tmod_of_nonneg_iff {x : Int} (h : 0 ≤ x ∨ 26 ∣ x) : x.tmod 26 = x % 26 := by
  rw [Int.tmod_eq_emod, if_pos h, Nat.cast_zero, sub_zero]

/-- What the code takes for an inverse of `a` is one. -/
structure Inverse (a i : Int) : Prop where
  low : 1 ≤ i
  high : i ≤ 25
  one : a * i ≡ 1 [ZMOD 26]

variable {a b i : Int}

theorem dvd_of_dvd_mul (hinv : Inverse a i) {w : Int} (h : 26 ∣ i * w) : 26 ∣ w := by
  have hprod : a * i * w ≡ 1 * w [ZMOD 26] := hinv.one.mul_right w
  have hdvd : 26 ∣ a * i * w := by
    rw [mul_assoc]
    exact h.mul_left a
  rw [one_mul] at hprod
  exact (Int.ModEq.dvd_iff hprod).mp hdvd

theorem back_there (hinv : Inverse a i) {y v : Int} (hy : 0 ≤ y ∧ y ≤ 25) (hv : v ≡ a * y + b [ZMOD 26])
    (h : 0 ≤ v - b + 26) : back b i v = y := by
  have hw : (v - b + 26) % 26 ≡ a * y [ZMOD 26] := by
    unfold Int.ModEq at hv ⊢
    omega
  have hback : i * ((v - b + 26) % 26) ≡ y [ZMOD 26] := by
    calc i * ((v - b + 26) % 26) ≡ i * (a * y) [ZMOD 26] := hw.mul_left i
      _ = a * i * y := by ring
      _ ≡ 1 * y [ZMOD 26] := hinv.one.mul_right y
      _ = y := one_mul y
  have hpos : 0 ≤ i * ((v - b + 26) % 26) := mul_nonneg (by linarith [hinv.low]) (by omega)
  rw [back, tmod_of_nonneg_iff (.inl h), tmod_of_nonneg_iff (.inl hpos), hback]
  exact Int.emod_eq_of_lt hy.1 (by omega)

theorem of_back_nonneg (hinv : Inverse a i) {v : Int} (h : 0 ≤ back b i v) : 0 ≤ v - b + 26 ∨ 26 ∣ v - b + 26 := by
  rw [← tmod_nonneg_iff]
  rcases (tmod_nonneg_iff _).mp h with hpos | hdvd
  · exact nonneg_of_mul_nonneg_right hpos (by linarith [hinv.low])
  · have hdvd := dvd_of_dvd_mul hinv hdvd
    have hbounds := tmod_bounds (v - b + 26)
    omega

/-- Every place is reached. -/
theorem exists_there (ha : 0 < a) (hb : 0 ≤ b) (hinv : Inverse a i) {v : Int} (hv : 0 ≤ v ∧ v ≤ 25) :
    ∃ y, 0 ≤ y ∧ y ≤ 25 ∧ there a b y = v := by
  refine ⟨i * (v - b) % 26, by omega, by omega, ?_⟩
  have hsum : a * (i * (v - b) % 26) + b ≡ v [ZMOD 26] := by
    calc a * (i * (v - b) % 26) + b ≡ a * (i * (v - b)) + b [ZMOD 26] := ((Int.mod_modEq _ 26).mul_left a).add_right b
      _ = a * i * (v - b) + b := by ring
      _ ≡ 1 * (v - b) + b [ZMOD 26] := (hinv.one.mul_right (v - b)).add_right b
      _ = v := by ring
  have hpos : 0 ≤ a * (i * (v - b) % 26) := mul_nonneg ha.le (by omega)
  rw [there, tmod_of_nonneg_iff (.inl (by omega)), hsum]
  exact Int.emod_eq_of_lt hv.1 (by omega)

theorem places_of_sound (ha : 0 < a) (hinv : Inverse a i) (h : Sound a b) {y : Int} (hy : 0 ≤ y ∧ y ≤ 25) :
    0 ≤ there a b y ∧ back b i (there a b y) = y := by
  -- only the sum at the place 0 can be negative, and then it leaves 0
  have hsum : 0 ≤ a * y + b ∨ 26 ∣ a * y + b := by
    rcases h with ⟨h0, -⟩ | ⟨-, hdvd, hab⟩
    · exact .inl (add_nonneg (mul_nonneg ha.le hy.1) h0)
    · rcases eq_or_lt_of_le hy.1 with rfl | hpos
      · exact .inr (by simpa using hdvd)
      · have hprod : a * 1 ≤ a * y := mul_le_mul_of_nonneg_left hpos ha.le
        exact .inl (by omega)
  have hthere : there a b y = (a * y + b) % 26 := tmod_of_nonneg_iff hsum
  have hlow : 0 ≤ (a * y + b) % 26 := by omega
  rw [hthere]
  refine ⟨hlow, back_there hinv hy (Int.mod_modEq _ 26) ?_⟩
  rcases h with ⟨-, h26⟩ | ⟨hneg, -, -⟩
  · omega
  · omega

theorem sound_of_places (ha : 0 < a) (hinv : Inverse a i)
    (h : ∀ y, 0 ≤ y → y ≤ 25 → 0 ≤ there a b y ∧ back b i (there a b y) = y) : Sound a b := by
  by_cases hb : 0 ≤ b
  · -- the letters that go to the places 0 and 1
    have hback {v : Int} (hv : 0 ≤ v ∧ v ≤ 25) : 0 ≤ v - b + 26 ∨ 26 ∣ v - b + 26 := by
      obtain ⟨y, hy0, hy25, hy⟩ := exists_there ha hb hinv hv
      refine of_back_nonneg hinv ?_
      rw [← hy, (h y hy0 hy25).2]
      exact hy0
    have hzero := hback (v := 0) ⟨by decide, by decide⟩
    have hone := hback (v := 1) ⟨by decide, by decide⟩
    exact .inl ⟨hb, by omega⟩
  · -- the letters at the places 0 and 1
    have hzero := (tmod_nonneg_iff _).mp (h 0 (by decide) (by decide)).1
    have hone := (tmod_nonneg_iff _).mp (h 1 (by decide) (by decide)).1
    rw [mul_zero, zero_add] at hzero
    rw [mul_one] at hone
    have hdvd : 26 ∣ b := hzero.resolve_left hb
    refine .inr ⟨not_le.mp hb, hdvd, hone.resolve_right ?_⟩
    intro hab
    have ha26 : 26 ∣ a := (Int.dvd_add_left hdvd).mp hab
    have hprod := (Int.modEq_zero_iff_dvd.mpr (ha26.mul_right i)).symm.trans hinv.one
    exact absurd hprod (by decide)

/-! ## Characters -/

/-- `m_a` and `m_b` that keep every sum an `int`. -/
def InRange (affine : Affine) : Prop := |affine.m_a| ≤ 2 ^ 20 ∧ |affine.m_b| ≤ 2 ^ 20

variable {affine : Affine}

theorem encryptChar_ok (hrange : affine.InRange) (ch : Byte) : affine.encryptChar ch =
    .ok (if isalpha ch then letter ch (there affine.m_a affine.m_b (place ch)) else ch) := by
  rw [encryptChar]
  split
  · rename_i hch
    obtain ⟨⟨halow, hahigh⟩, ⟨hblow, hbhigh⟩⟩ := And.intro (abs_le.mp hrange.1) (abs_le.mp hrange.2)
    obtain ⟨h0, h25⟩ := place_bounds ch hch
    have hlow : -2 ^ 20 * place ch ≤ affine.m_a * place ch := mul_le_mul_of_nonneg_right halow h0
    have hhigh : affine.m_a * place ch ≤ 2 ^ 20 * place ch := mul_le_mul_of_nonneg_right hahigh h0
    have hmul : mul affine.m_a (place ch) = (.ok (affine.m_a * place ch) : Except Fault Int) :=
      mul_ok ⟨by omega, by omega⟩
    have hadd : add (affine.m_a * place ch) affine.m_b = (.ok (affine.m_a * place ch + affine.m_b) : Except Fault Int) :=
      add_ok ⟨by omega, by omega⟩
    simp only [hmul, hadd, Bind.bind, Except.bind]
    rfl
  · rfl

theorem decryptChar_ok (hrange : affine.InRange) (hlow : 1 ≤ i) (hhigh : i ≤ 25) (ch : Byte) :
    affine.decryptChar i ch = .ok (if isalpha ch then letter ch (back affine.m_b i (place ch)) else ch) := by
  rw [decryptChar]
  split
  · rename_i hch
    obtain ⟨hblow, hbhigh⟩ := abs_le.mp hrange.2
    obtain ⟨h0, h25⟩ := place_bounds ch hch
    obtain ⟨hrlow, hrhigh⟩ := tmod_bounds (place ch - affine.m_b + 26)
    have hplow : i * -25 ≤ i * (place ch - affine.m_b + 26).tmod 26 := mul_le_mul_of_nonneg_left (by omega) (by omega)
    have hphigh : i * (place ch - affine.m_b + 26).tmod 26 ≤ i * 25 := mul_le_mul_of_nonneg_left (by omega) (by omega)
    have hsub : sub (place ch) affine.m_b = (.ok (place ch - affine.m_b) : Except Fault Int) := sub_ok ⟨by omega, by omega⟩
    have hadd : add (place ch - affine.m_b) 26 = (.ok (place ch - affine.m_b + 26) : Except Fault Int) :=
      add_ok ⟨by omega, by omega⟩
    have hmul : mul i ((place ch - affine.m_b + 26).tmod 26) =
        (.ok (i * (place ch - affine.m_b + 26).tmod 26) : Except Fault Int) := mul_ok ⟨by omega, by omega⟩
    simp only [hsub, hadd, hmul, Bind.bind, Except.bind]
    rfl
  · rfl

theorem mapM_ok {f : Byte → Except Fault Byte} {g : Byte → Byte} (h : ∀ ch, f ch = .ok (g ch)) (text : Bytes) :
    text.mapM f = .ok (text.map g) := by
  rw [funext h]
  exact List.mapM_pure

theorem encrypt_ok (hrange : affine.InRange) (text : Bytes) : affine.encrypt text = .ok (text.map fun ch =>
    if isalpha ch then letter ch (there affine.m_a affine.m_b (place ch)) else ch) :=
  mapM_ok (encryptChar_ok hrange) text

/-! ## The inverse -/

theorem gcd_eq_one (affine : Affine) : Int.gcd affine.m_a 26 = 1 := by
  rw [← Utils.natAbs_gcd, affine.coprime]
  rfl

theorem modInverse_ok (hpos : 0 < affine.m_a) :
    ∃ i, Utils.modInverse affine.m_a 26 = (.ok i : Except Fault Int) ∧ Inverse affine.m_a i := by
  rcases Utils.modInverse_nonneg (ε := Fault) (m := 26) hpos.le (by decide) (by decide) with hfound | hnone
  · obtain ⟨i, hi, hres⟩ := hfound
    obtain ⟨hlow, hhigh, hone⟩ := hi
    exact ⟨i, hres, hlow, Int.le_of_lt_add_one hhigh, hone⟩
  · exact absurd (gcd_eq_one affine) hnone.1

theorem decrypt_ok (hrange : affine.InRange) (hi : Utils.modInverse affine.m_a 26 = (.ok i : Except Fault Int))
    (hinv : Inverse affine.m_a i) (text : Bytes) : affine.decrypt text =
      .ok (text.map fun ch => if isalpha ch then letter ch (back affine.m_b i (place ch)) else ch) := by
  have hne : i ≠ -1 := by
    have hlow := hinv.low
    omega
  simp only [decrypt, hi, Bind.bind, Except.bind, if_neg hne]
  exact mapM_ok (decryptChar_ok hrange hinv.low hinv.high) text

theorem decrypt_nonpos (h : affine.m_a ≤ 0) (text : Bytes) :
    affine.decrypt text = .error (.runtimeError "Modular inverse for the given 'a' does not exist.") := by
  have hi : Utils.modInverse affine.m_a 26 = (.ok (-1) : Except Fault Int) :=
    Utils.modInverse_nonpos h (by decide) (by decide)
  rw [decrypt, hi]
  rfl

/-! ## Texts -/

theorem meets_of_sound (hrange : affine.InRange) (hpos : 0 < affine.m_a) (hsound : Sound affine.m_a affine.m_b) :
    affine.Meets := by
  intro text
  obtain ⟨i, hi, hinv⟩ := modInverse_ok hpos
  have hplaces {ch : Byte} (hch : isalpha ch) := places_of_sound hpos hinv hsound (place_bounds ch hch)
  have hletter {ch : Byte} (hch : isalpha ch) : isalpha (letter ch (there affine.m_a affine.m_b (place ch))) ∧
      isupper (letter ch (there affine.m_a affine.m_b (place ch))) = isupper ch ∧
      place (letter ch (there affine.m_a affine.m_b (place ch))) = there affine.m_a affine.m_b (place ch) := by
    have hbounds := tmod_bounds (affine.m_a * place ch + affine.m_b)
    exact letter_spec ch (hplaces hch).1 (Int.lt_add_one_iff.mp hbounds.2)
  refine ⟨_, encrypt_ok hrange text, ?_, ?_⟩
  · rw [Kept, List.forall₂_map_right_iff, List.forall₂_same]
    intro ch _
    by_cases hch : isalpha ch
    · rw [if_pos hch]
      exact ⟨(hletter hch).1.trans hch.symm, (hletter hch).2.1, fun h => absurd hch h⟩
    · rw [if_neg hch]
      exact ⟨rfl, rfl, fun _ => rfl⟩
  · rw [decrypt_ok hrange hi hinv, List.map_map]
    refine congrArg Except.ok ((List.map_congr_left fun ch _ => ?_).trans (List.map_id text))
    by_cases hch : isalpha ch
    · obtain ⟨halpha, hupper, hplace⟩ := hletter hch
      simp only [Function.comp_apply, if_pos hch, if_pos halpha]
      rw [hplace, (hplaces hch).2, letter_congr hupper, letter_place]
      rfl
    · simp only [Function.comp_apply, if_neg hch]
      rfl

/-- One letter of upper case tells all about its place. -/
theorem places_of_meets (hrange : affine.InRange) (hmeets : affine.Meets)
    (hi : Utils.modInverse affine.m_a 26 = (.ok i : Except Fault Int)) (hinv : Inverse affine.m_a i) {y : Int} (h0 : 0 ≤ y)
    (h25 : y ≤ 25) : 0 ≤ there affine.m_a affine.m_b y ∧ back affine.m_b i (there affine.m_a affine.m_b y) = y := by
  obtain ⟨halpha, hupper, hplace⟩ := letter_spec (chr 'A') h0 h25
  obtain ⟨ciphertext, henc, hkept, hdec⟩ := hmeets [letter (chr 'A') y]
  rw [encrypt_ok hrange, List.map_singleton, if_pos halpha, hplace, letter_congr hupper, Except.ok.injEq] at henc
  subst henc
  obtain ⟨⟨halpha', hupper', -⟩, -⟩ := List.forall₂_cons.mp hkept
  rw [halpha] at halpha'
  rw [hupper] at hupper'
  have hthere : 0 ≤ there affine.m_a affine.m_b y := nonneg_of_isupper (by decide) hupper' (tmod_bounds _).1
  obtain ⟨-, -, hplace'⟩ := letter_spec (chr 'A') hthere (Int.lt_add_one_iff.mp (tmod_bounds _).2)
  rw [decrypt_ok hrange hi hinv, List.map_singleton, if_pos halpha', hplace', letter_congr hupper', Except.ok.injEq,
    List.cons.injEq] at hdec
  have hback : 0 ≤ back affine.m_b i (there affine.m_a affine.m_b y) :=
    nonneg_of_isupper (by decide) (hdec.1 ▸ hupper) (tmod_bounds _).1
  obtain ⟨-, -, hplace''⟩ := letter_spec (chr 'A') hback (Int.lt_add_one_iff.mp (tmod_bounds _).2)
  exact ⟨hthere, hplace''.symm.trans (hdec.1 ▸ hplace)⟩

theorem new_eq_ok (h : new a b = .ok affine) : affine.m_a = a ∧ affine.m_b = b := by
  unfold new at h
  split at h
  · cases h
    exact ⟨rfl, rfl⟩
  · cases h

/-- For every pair that the constructor takes. -/
theorem meets_iff (ha : |a| ≤ 2 ^ 20) (hb : |b| ≤ 2 ^ 20) (hnew : new a b = .ok affine) :
    affine.Meets ↔ 0 < a ∧ Sound a b := by
  obtain ⟨rfl, rfl⟩ := new_eq_ok hnew
  have hrange : affine.InRange := ⟨ha, hb⟩
  constructor
  · intro hmeets
    have hpos : 0 < affine.m_a := by
      by_contra hneg
      obtain ⟨ciphertext, -, -, hdec⟩ := hmeets []
      rw [decrypt_nonpos (not_lt.mp hneg)] at hdec
      cases hdec
    obtain ⟨i, hi, hinv⟩ := modInverse_ok hpos
    exact ⟨hpos, sound_of_places hpos hinv fun y h0 h25 => places_of_meets hrange hmeets hi hinv h0 h25⟩
  · intro hboth
    obtain ⟨hpos, hsound⟩ := hboth
    exact meets_of_sound hrange hpos hsound

theorem new_ok (h : Utils.gcd a 26 = 1) : new a b = .ok ⟨a, b, h⟩ := dif_pos h

/-- The first key of the tests. -/
theorem meets_iff_tests : ∃ affine, new 3 5 = .ok affine ∧ (affine.Meets ↔ (0 : Int) < 3 ∧ Sound 3 5) := by
  have h : Utils.gcd 3 26 = 1 := by simp [Utils.gcd]
  exact ⟨_, new_ok h, meets_iff (by decide) (by decide) (new_ok h)⟩

/-- With -1 the letter `A` becomes the character before it. -/
theorem encrypt_leaves_alphabet : ¬ ∀ a b affine, |a| ≤ 2 ^ 20 → |b| ≤ 2 ^ 20 → new a b = .ok affine → affine.Meets := by
  intro h
  have hgcd : Utils.gcd 3 26 = 1 := by simp [Utils.gcd]
  have hmeets := h 3 (-1) _ (by decide) (by decide) (new_ok hgcd)
  obtain ⟨ciphertext, henc, hkept, -⟩ := hmeets [chr 'A']
  have hout : ciphertext = [chr '@'] := by
    cases henc
    rfl
  subst hout
  exact absurd (List.forall₂_cons.mp hkept).1.1 (by decide)

end Affine

end CryptoChat.Crypto.Classic
