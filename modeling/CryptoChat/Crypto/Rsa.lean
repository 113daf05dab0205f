/-
  CryptoChat.Crypto.Rsa — the RSA of `modern/asymmetric/RSA.cpp`, in `uint64_t`.

  `mulMod` and `modPow` are the binary method; their additions and doublings stay below
  2^64 exactly when the modulus is at most 2^63 (`mulMod_modPow_exact`). For such a modulus
  of two primes, decrypting gives the byte back that was encrypted (`rsa_decrypts`).
  `isPrime` ends and is right for every word, also where `i * i` wraps (`isPrime_eq`).
-/

import CryptoChat.Lib.BinaryMethod
import CryptoChat.Lib.Bytes
import Mathlib

namespace CryptoChat.Crypto.Rsa

open CryptoChat.Lib

/-- `m` is not 0: the code divides by it. -/
def mulMod (a b m : BitVec 64) : BitVec 64 :=
  BinaryMethod.loop (fun res a => (res + a) % m) (fun a => a * 2#64 % m) 0#64 (a % m) b.toNat

/-- `mod` is not 0: the code divides by it. -/
def modPow (base exp mod : BitVec 64) : BitVec 64 :=
  BinaryMethod.loop (fun result base => mulMod result base mod) (fun base => mulMod base base mod) 1#64 (base % mod)
    exp.toNat

def encodeUint64 (v : BitVec 64) : Bytes := toBytes 8 v

def decodeUint64 (b : Bytes) (offset : Nat) : Except String (BitVec 64) :=
  if b.length < offset + 8 then throw "Invalid key format" else pure (ofBytes 64 ((b.drop offset).take 8))

def encrypt (plaintext publicKey : Bytes) : Except String Bytes :=
  match plaintext with
  | [byte] => do
    let n ← decodeUint64 publicKey 0
    let e ← decodeUint64 publicKey 8
    let m := byte.setWidth 64
    if n ≤ m then throw "Message too large"
    return encodeUint64 (modPow m e n)
  | _ => throw "RSA demo supports 1-byte messages"

/-- `n` is not 0: `modPow` divides by it. -/
def decrypt (ciphertext privateKey : Bytes) : Except String Bytes := do
  let n ← decodeUint64 privateKey 0
  let d ← decodeUint64 privateKey 8
  let c ← decodeUint64 ciphertext 0
  return [(modPow c d n).setWidth 8]

/-! ## A modulus of at most 2^63 -/

variable {m : BitVec 64}

theorem toNat_add_mod (hm : m.toNat ≤ 2 ^ 63) {a b : BitVec 64} (ha : a.toNat < m.toNat) (hb : b.toNat < m.toNat) :
    ((a + b) % m).toNat = (a.toNat + b.toNat) % m.toNat := by
  rw [BitVec.toNat_umod, BitVec.toNat_add, Nat.mod_eq_of_lt (show a.toNat + b.toNat < 2 ^ 64 by omega)]

theorem toNat_double_mod (hm : m.toNat ≤ 2 ^ 63) {a : BitVec 64} (ha : a.toNat < m.toNat) :
    (a * 2#64 % m).toNat = (a.toNat + a.toNat) % m.toNat := by
  have hdouble : a * 2#64 = a + a := by rw [BitVec.mul_two]
  rw [hdouble, toNat_add_mod hm ha ha]

/-- The residue of a word, where doubling and adding is multiplying. -/
def residue (m a : BitVec 64) : Multiplicative (ZMod m.toNat) := Multiplicative.ofAdd (a.toNat : ZMod m.toNat)

/-- A remainder is read off its class. -/
theorem eq_mod_of_cast {k x y : Nat} (hlt : x < k) (hcast : (x : ZMod k) = (y : ZMod k)) : x = y % k := by
  rw [← Nat.mod_eq_of_lt hlt]
  exact (ZMod.natCast_eq_natCast_iff' _ _ _).mp hcast

theorem mulMod_eq (hpos : 0 < m.toNat) (hm : m.toNat ≤ 2 ^ 63) (a b : BitVec 64) :
    (mulMod a b m).toNat = a.toNat * b.toNat % m.toNat := by
  have hop (r a : BitVec 64) (hr : r.toNat < m.toNat) (ha : a.toNat < m.toNat) :
      ((r + a) % m).toNat < m.toNat ∧ residue m ((r + a) % m) = residue m r * residue m a := by
    rw [residue, toNat_add_mod hm hr ha, ZMod.natCast_mod, Nat.cast_add]
    exact ⟨Nat.mod_lt _ hpos, rfl⟩
  have hsq (a : BitVec 64) (ha : a.toNat < m.toNat) :
      (a * 2#64 % m).toNat < m.toNat ∧ residue m (a * 2#64 % m) = residue m a * residue m a := by
    rw [residue, toNat_double_mod hm ha, ZMod.natCast_mod, Nat.cast_add]
    exact ⟨Nat.mod_lt _ hpos, rfl⟩
  have ha : (a % m).toNat < m.toNat := by
    rw [BitVec.toNat_umod]
    exact Nat.mod_lt _ hpos
  have h0 : (0#64).toNat < m.toNat := hpos
  obtain ⟨hlt, hval⟩ := BinaryMethod.val_loop (fun r => r.toNat < m.toNat) (residue m) hop hsq h0 ha b.toNat
  have hcast : ((mulMod a b m).toNat : ZMod m.toNat) = ((a.toNat * b.toNat : Nat) : ZMod m.toNat) := by
    have hadd := congrArg Multiplicative.toAdd hval
    simp only [residue, toAdd_mul, toAdd_pow, toAdd_ofAdd, BitVec.toNat_umod, ZMod.natCast_mod, nsmul_eq_mul] at hadd
    rw [Nat.cast_mul, mul_comm]
    simpa [mulMod] using hadd
  exact eq_mod_of_cast hlt hcast

theorem modPow_eq (hpos : 2 ≤ m.toNat) (hm : m.toNat ≤ 2 ^ 63) (base exp : BitVec 64) :
    (modPow base exp m).toNat = base.toNat ^ exp.toNat % m.toNat := by
  have hlt0 : 0 < m.toNat := by omega
  have hop (r a : BitVec 64) : (mulMod r a m).toNat < m.toNat ∧
      ((mulMod r a m).toNat : ZMod m.toNat) = r.toNat * a.toNat := by
    rw [mulMod_eq hlt0 hm, ZMod.natCast_mod, Nat.cast_mul]
    exact ⟨Nat.mod_lt _ hlt0, rfl⟩
  have hbase : (base % m).toNat < m.toNat := by
    rw [BitVec.toNat_umod]
    exact Nat.mod_lt _ hlt0
  have h1 : (1#64).toNat < m.toNat := hpos
  obtain ⟨hlt, hval⟩ := BinaryMethod.val_loop (fun r => r.toNat < m.toNat)
    (fun r : BitVec 64 => (r.toNat : ZMod m.toNat)) (fun r a _ _ => hop r a) (fun a _ => hop a a) h1 hbase exp.toNat
  have hcast : ((modPow base exp m).toNat : ZMod m.toNat) = ((base.toNat ^ exp.toNat : Nat) : ZMod m.toNat) := by
    have hone : ((1#64).toNat : ZMod m.toNat) = 1 := by simp
    rw [modPow, hval, BitVec.toNat_umod, ZMod.natCast_mod, hone, one_mul, Nat.cast_pow]
  exact eq_mod_of_cast hlt hcast

/-! ## A larger modulus -/

/-- 2^32 doubled `i` times, short of the top. -/
theorem iterate_double (hm : 2 ^ 63 < m.toNat) {i : Nat} (hi : i ≤ 31) :
    ((fun a => a * 2#64 % m)^[i] (4294967296#64 % m)).toNat = 2 ^ (32 + i) := by
  induction i with
  | zero =>
    rw [Function.iterate_zero_apply, BitVec.toNat_umod]
    exact Nat.mod_eq_of_lt (show 4294967296 < m.toNat by omega)
  | succ i ih =>
    have hle : 2 ^ (32 + (i + 1)) ≤ 2 ^ 63 := Nat.pow_le_pow_right (by decide) (by omega)
    have hdouble : 2 ^ (32 + i) * 2 = 2 ^ (32 + (i + 1)) := (Nat.pow_succ ..).symm
    rw [Function.iterate_succ_apply', BitVec.toNat_umod, BitVec.toNat_mul, ih (by omega)]
    rw [show (2#64).toNat = 2 from rfl, hdouble, Nat.mod_eq_of_lt (a := 2 ^ (32 + (i + 1))) (by omega)]
    exact Nat.mod_eq_of_lt (by omega)

/-- The last doubling wraps to 0. -/
theorem mulMod_wraps (hm : 2 ^ 63 < m.toNat) : mulMod 4294967296#64 4294967296#64 m = 0#64 := by
  have hlast : (fun a => a * 2#64 % m)^[32] (4294967296#64 % m) = 0#64 := by
    apply BitVec.eq_of_toNat_eq
    rw [Function.iterate_succ_apply' _ 31, BitVec.toNat_umod, BitVec.toNat_mul, iterate_double hm (by decide)]
    exact Nat.zero_mod _
  have hpow : (4294967296#64).toNat = 2 ^ 32 := rfl
  rw [mulMod, hpow, BinaryMethod.loop_two_pow, hlast]
  exact BitVec.eq_of_toNat_eq (Nat.zero_mod _)

theorem modPow_wraps (hm : 2 ^ 63 < m.toNat) : modPow 4294967296#64 2#64 m = 0#64 := by
  have hsmall : 4294967296#64 % m = 4294967296#64 :=
    BitVec.eq_of_toNat_eq (Nat.mod_eq_of_lt (show 4294967296 < m.toNat by omega))
  have hexp : (2#64).toNat = 2 ^ 1 := rfl
  rw [modPow, hexp, BinaryMethod.loop_two_pow, Function.iterate_one, hsmall, mulMod_wraps hm]
  exact BinaryMethod.loop_zero _ _

/-- Where 2^64 leaves a remainder. -/
theorem two_pow_mod (hm : 2 ^ 63 < m.toNat) : 2 ^ 64 % m.toNat ≠ 0 := by
  have hlt := m.isLt
  rw [Nat.mod_eq_sub_mod (by omega), Nat.mod_eq_of_lt (by omega)]
  omega

theorem mulMod_fails (hm : 2 ^ 63 < m.toNat) :
    ¬ ∀ a b, (mulMod a b m).toNat = a.toNat * b.toNat % m.toNat := by
  intro h
  have hbad := h 4294967296#64 4294967296#64
  rw [mulMod_wraps hm] at hbad
  exact two_pow_mod hm hbad.symm

theorem modPow_fails (hm : 2 ^ 63 < m.toNat) :
    ¬ ∀ base exp, (modPow base exp m).toNat = base.toNat ^ exp.toNat % m.toNat := by
  intro h
  have hbad := h 4294967296#64 2#64
  rw [modPow_wraps hm] at hbad
  exact two_pow_mod hm hbad.symm

/-- The helpers are right for exactly the moduli up to 2^63. -/
theorem mulMod_modPow_exact (m : BitVec 64) (hpos : 1 ≤ m.toNat) :
    ((∀ a b, (mulMod a b m).toNat = a.toNat * b.toNat % m.toNat) ↔ m.toNat ≤ 2 ^ 63) ∧
      (2 ≤ m.toNat →
        ((∀ base exp, (modPow base exp m).toNat = base.toNat ^ exp.toNat % m.toNat) ↔ m.toNat ≤ 2 ^ 63)) := by
  refine ⟨⟨?_, fun hm a b => mulMod_eq hpos hm a b⟩, fun h2 => ⟨?_, fun hm base exp => modPow_eq h2 hm base exp⟩⟩
  · intro h
    exact Nat.le_of_not_lt fun hm => mulMod_fails hm h
  · intro h
    exact Nat.le_of_not_lt fun hm => modPow_fails hm h

theorem mulMod_modPow_exact_small :
    ((∀ a b, (mulMod a b 3233#64).toNat = a.toNat * b.toNat % 3233) ↔ 3233 ≤ 2 ^ 63) ∧
      (2 ≤ 3233 → ((∀ base exp, (modPow base exp 3233#64).toNat = base.toNat ^ exp.toNat % 3233) ↔ 3233 ≤ 2 ^ 63)) :=
  mulMod_modPow_exact 3233#64 (by decide)

/-- Both are wrong for the modulus 2^63 + 1. -/
theorem mulMod_modPow_wrong :
    ¬ (∀ a b m : BitVec 64, 1 ≤ m.toNat → (mulMod a b m).toNat = a.toNat * b.toNat % m.toNat) ∧
      ¬ ∀ base exp mod : BitVec 64, 2 ≤ mod.toNat →
        (modPow base exp mod).toNat = base.toNat ^ exp.toNat % mod.toNat := by
  have hm : 2 ^ 63 < (9223372036854775809#64).toNat := by decide
  constructor
  · intro h
    exact mulMod_fails hm fun a b => h a b _ (by decide)
  · intro h
    exact modPow_fails hm fun base exp => h base exp _ (by decide)

/-! ## Two primes -/

/-- Fermat: an exponent that is 1 modulo `p - 1` changes nothing modulo `p`. -/
theorem pow_modEq_self {p k : Nat} (hp : p.Prime) (hk : 1 ≤ k) (hmod : p - 1 ∣ k - 1) (m : Nat) : m ^ k ≡ m [MOD p] := by
  have : Fact p.Prime := ⟨hp⟩
  obtain ⟨t, ht⟩ := hmod
  have hsplit : k = (p - 1) * t + 1 := by omega
  rw [← ZMod.natCast_eq_natCast_iff, Nat.cast_pow, hsplit, pow_succ, pow_mul]
  by_cases hzero : (m : ZMod p) = 0
  · rw [hzero, mul_zero]
  · rw [ZMod.pow_card_sub_one_eq_one hzero, one_pow, one_mul]

/-- Euler for the product of two primes, whatever the message shares with it. -/
theorem pow_mod_primes {p q k m : Nat} (hp : p.Prime) (hq : q.Prime) (hpq : p ≠ q)
    (hk : k ≡ 1 [MOD (p - 1) * (q - 1)]) (hk1 : 1 ≤ k) (hm : m < p * q) : m ^ k % (p * q) = m := by
  have hdvd : (p - 1) * (q - 1) ∣ k - 1 := (Nat.modEq_iff_dvd' hk1).mp hk.symm
  have hmodp := pow_modEq_self hp hk1 ((Nat.dvd_mul_right _ _).trans hdvd) m
  have hmodq := pow_modEq_self hq hk1 ((Nat.dvd_mul_left _ _).trans hdvd) m
  have hcoprime : Nat.Coprime p q := (Nat.coprime_primes hp hq).mpr hpq
  have hmod : m ^ k ≡ m [MOD p * q] := (Nat.modEq_and_modEq_iff_modEq_mul hcoprime).mp ⟨hmodp, hmodq⟩
  exact Nat.mod_eq_of_modEq hmod hm

/-- An exponent that is 1 modulo an even number is not 0. -/
theorem one_le_exponent {p q k : Nat} (hp : p.Prime) (hq : q.Prime) (hpq : p ≠ q)
    (hk : k ≡ 1 [MOD (p - 1) * (q - 1)]) : 1 ≤ k := by
  rcases Nat.eq_zero_or_pos k with rfl | hpos
  · have hp2 := hp.two_le
    have hq2 := hq.two_le
    have hdvd : (p - 1) * (q - 1) ∣ 1 - 0 := (Nat.modEq_iff_dvd' (Nat.zero_le 1)).mp hk
    obtain ⟨hp1, hq1⟩ := mul_eq_one.mp (Nat.dvd_one.mp hdvd)
    omega
  · exact hpos

/-! ## There and back -/

/-- A word is read back wherever it stands. -/
theorem decodeUint64_at (before rest : Bytes) (v : BitVec 64) :
    decodeUint64 (before ++ encodeUint64 v ++ rest) before.length = .ok v := by
  have hlen : (encodeUint64 v).length = 8 := length_toBytes 8 v
  have hguard : ¬ (before ++ encodeUint64 v ++ rest).length < before.length + 8 := by
    rw [List.length_append, List.length_append, hlen]
    omega
  rw [decodeUint64, if_neg hguard, List.append_assoc, List.drop_left, List.take_left' hlen, encodeUint64,
    ofBytes_toBytes (by decide)]
  rfl

theorem decodeUint64_fst (n e : BitVec 64) : decodeUint64 (encodeUint64 n ++ encodeUint64 e) 0 = .ok n :=
  decodeUint64_at [] (encodeUint64 e) n

theorem decodeUint64_snd (n e : BitVec 64) : decodeUint64 (encodeUint64 n ++ encodeUint64 e) 8 = .ok e := by
  have hat := decodeUint64_at (encodeUint64 n) [] e
  rwa [List.append_nil, encodeUint64, length_toBytes] at hat

theorem decodeUint64_encode (c : BitVec 64) : decodeUint64 (encodeUint64 c) 0 = .ok c := by
  have hat := decodeUint64_at [] [] c
  rwa [List.append_nil] at hat

theorem encrypt_eq {n : BitVec 64} (e : BitVec 64) {byte : Byte} (hlt : byte.toNat < n.toNat) :
    encrypt [byte] (encodeUint64 n ++ encodeUint64 e) = .ok (encodeUint64 (modPow (byte.setWidth 64) e n)) := by
  have hguard : ¬ n ≤ byte.setWidth 64 := by
    rw [BitVec.le_def, BitVec.toNat_setWidth, Nat.mod_eq_of_lt (by omega)]
    omega
  simp only [encrypt, decodeUint64_fst, decodeUint64_snd, Bind.bind, Except.bind, if_neg hguard]
  rfl

theorem decrypt_eq (n d c : BitVec 64) :
    decrypt (encodeUint64 c) (encodeUint64 n ++ encodeUint64 d) = .ok [(modPow c d n).setWidth 8] := by
  simp only [decrypt, decodeUint64_fst, decodeUint64_snd, decodeUint64_encode]
  rfl

/-- For all primes, exponents and bytes, with a modulus that keeps `mulMod` in range. -/
theorem rsa_decrypts {p q : Nat} (hp : p.Prime) (hq : q.Prime) (hpq : p ≠ q) (hn : p * q ≤ 2 ^ 63) {e d : BitVec 64}
    (hed : e.toNat * d.toNat ≡ 1 [MOD (p - 1) * (q - 1)]) {byte : Byte} (hbyte : byte.toNat < p * q) :
    let n := BitVec.ofNat 64 (p * q)
    (encrypt [byte] (encodeUint64 n ++ encodeUint64 e)).bind (fun c => decrypt c (encodeUint64 n ++ encodeUint64 d)) =
      .ok [byte] := by
  intro n
  have hnat : n.toNat = p * q := by
    rw [BitVec.toNat_ofNat, Nat.mod_eq_of_lt (by omega)]
  have hmax : n.toNat ≤ 2 ^ 63 := hnat ▸ hn
  have htwo : 2 ≤ n.toNat := by
    have hmul := Nat.mul_le_mul hp.two_le hq.two_le
    omega
  have hm : (byte.setWidth 64).toNat = byte.toNat := by
    rw [BitVec.toNat_setWidth, Nat.mod_eq_of_lt (by omega)]
  have hplain : (modPow (modPow (byte.setWidth 64) e n) d n).toNat = byte.toNat := by
    rw [modPow_eq htwo hmax, modPow_eq htwo hmax, ← Nat.pow_mod, ← Nat.pow_mul, hm, hnat]
    exact pow_mod_primes hp hq hpq hed (one_le_exponent hp hq hpq hed) hbyte
  have hback : (modPow (modPow (byte.setWidth 64) e n) d n).setWidth 8 = byte := by
    apply BitVec.eq_of_toNat_eq
    rw [BitVec.toNat_setWidth, hplain, Nat.mod_eq_of_lt byte.isLt]
  rw [encrypt_eq e (hnat ▸ hbyte), Except.bind, decrypt_eq, hback]

/-- The key pair of the demo, and the byte of its test. -/
theorem rsa_decrypts_demo :
    let n := BitVec.ofNat 64 (61 * 53)
    (encrypt [75#8] (encodeUint64 n ++ encodeUint64 17#64)).bind
      (fun c => decrypt c (encodeUint64 n ++ encodeUint64 2753#64)) = .ok [75#8] :=
  rsa_decrypts (by norm_num) (by norm_num) (by decide) (by decide) (by decide) (by decide)

/-! ## Primality -/

/-- `for (uint64_t i = 2; i * i <= n; ++i)` from `i` on, for at most `fuel` rounds. A division
    by 0 has no value either. -/
def primeLoop (n : BitVec 64) : Nat → BitVec 64 → Option Bool
  | 0, _ => none
  | fuel + 1, i =>
    if i * i ≤ n then
      if i = 0#64 then none
      else if n % i = 0#64 then some false
      else primeLoop n fuel (i + 1#64)
    else some true

def isPrime (n : BitVec 64) (fuel : Nat) : Option Bool := if n < 2#64 then some false else primeLoop n fuel 2#64

/-- The exit test, on the product as the word holds it. -/
theorem square_le {n : BitVec 64} {k : Nat} (hk : k < 2 ^ 64) :
    BitVec.ofNat 64 k * BitVec.ofNat 64 k ≤ n ↔ k * k % 2 ^ 64 ≤ n.toNat := by
  rw [BitVec.le_def, BitVec.toNat_mul, BitVec.toNat_ofNat, Nat.mod_eq_of_lt hk]

theorem umod_eq_zero {n : BitVec 64} {k : Nat} (hk : k < 2 ^ 64) : n % BitVec.ofNat 64 k = 0#64 ↔ k ∣ n.toNat := by
  rw [← BitVec.toNat_inj, BitVec.toNat_umod, BitVec.toNat_ofNat, Nat.mod_eq_of_lt hk, Nat.dvd_iff_mod_eq_zero]
  rfl

theorem ofNat_ne_zero {k : Nat} (hpos : 0 < k) (hk : k < 2 ^ 64) : BitVec.ofNat 64 k ≠ 0#64 := by
  rw [ne_eq, ← BitVec.toNat_inj, BitVec.toNat_ofNat, Nat.mod_eq_of_lt hk]
  exact hpos.ne'

/-- `k` neither leaves the loop nor divides `n`. -/
def Passes (n : BitVec 64) (k : Nat) : Prop := k * k % 2 ^ 64 ≤ n.toNat ∧ ¬ k ∣ n.toNat

theorem primeLoop_pass {n : BitVec 64} {k : Nat} (fuel : Nat) (hpos : 0 < k) (hk : k < 2 ^ 64) (hpass : Passes n k) :
    primeLoop n (fuel + 1) (BitVec.ofNat 64 k) = primeLoop n fuel (BitVec.ofNat 64 (k + 1)) := by
  rw [primeLoop, if_pos ((square_le hk).mpr hpass.1), if_neg (ofNat_ne_zero hpos hk),
    if_neg (mt (umod_eq_zero hk).mp hpass.2), BitVec.ofNat_add]

/-- The loop gets to `i + d` when everything before it passes. -/
theorem primeLoop_run {n : BitVec 64} {d i : Nat} (fuel : Nat) (hpos : 0 < i) (hlt : i + d < 2 ^ 64)
    (hpass : ∀ k, i ≤ k → k < i + d → Passes n k) :
    primeLoop n (fuel + d) (BitVec.ofNat 64 i) = primeLoop n fuel (BitVec.ofNat 64 (i + d)) := by
  induction d generalizing i with
  | zero => rfl
  | succ d ih =>
    have hfirst := primeLoop_pass (fuel + d) hpos (by omega) (hpass i le_rfl (by omega))
    have hrest := ih (i := i + 1) (by omega) (by omega) fun k hk hkd => hpass k (by omega) (by omega)
    rw [← Nat.add_assoc, hfirst, hrest, Nat.add_right_comm i 1 d, Nat.add_assoc i d 1]

theorem primeLoop_exit {n : BitVec 64} {k : Nat} (fuel : Nat) (hk : k < 2 ^ 64) (hexit : n.toNat < k * k % 2 ^ 64) :
    primeLoop n (fuel + 1) (BitVec.ofNat 64 k) = some true := by
  rw [primeLoop, if_neg (mt (square_le hk).mp (by omega))]

theorem primeLoop_divisor {n : BitVec 64} {k : Nat} (fuel : Nat) (hpos : 0 < k) (hk : k < 2 ^ 64)
    (hle : k * k % 2 ^ 64 ≤ n.toNat) (hdvd : k ∣ n.toNat) :
    primeLoop n (fuel + 1) (BitVec.ofNat 64 k) = some false := by
  rw [primeLoop, if_pos ((square_le hk).mpr hle), if_neg (ofNat_ne_zero hpos hk), if_pos ((umod_eq_zero hk).mpr hdvd)]

/-- A number that is not prime has its least factor below 2^32, before any product wraps. -/
theorem primeLoop_composite {n : BitVec 64} {fuel : Nat} (h2 : 2 ≤ n.toNat) (hn : ¬ n.toNat.Prime)
    (hfuel : n.toNat ≤ fuel) : primeLoop n fuel 2#64 = some false := by
  have hne : n.toNat ≠ 1 := by omega
  have hmin2 := (Nat.minFac_prime hne).two_le
  have hsq : n.toNat.minFac ^ 2 ≤ n.toNat := Nat.minFac_sq_le_self (by omega) hn
  have hlen := n.isLt
  set p := n.toNat.minFac with hp
  have hple : p ≤ n.toNat := Nat.minFac_le (by omega)
  have hsmall {k : Nat} (hk : k ≤ p) : k * k % 2 ^ 64 ≤ n.toNat := by
    have hkk : k * k ≤ p ^ 2 := by
      rw [pow_two]
      exact Nat.mul_le_mul hk hk
    exact (Nat.mod_le _ _).trans (hkk.trans hsq)
  have hpass : ∀ k, 2 ≤ k → k < 2 + (p - 2) → Passes n k := by
    intro k hk hkp
    refine ⟨hsmall (by omega), ?_⟩
    intro hdvd
    have hleast := Nat.minFac_le_of_dvd hk hdvd
    omega
  have hrun := primeLoop_run (fuel - (p - 2)) (by decide) (by omega) hpass
  rw [Nat.sub_add_cancel (show p - 2 ≤ fuel by omega)] at hrun
  obtain ⟨rest, hrest⟩ : ∃ rest, fuel - (p - 2) = rest + 1 := ⟨fuel - (p - 2) - 1, by omega⟩
  rw [hrun, hrest, Nat.add_sub_cancel' hmin2]
  exact primeLoop_divisor rest (by omega) (by omega) (hsmall le_rfl) (Nat.minFac_dvd _)

/-- The seven largest words have a factor 2, 3, 11 or 13. -/
theorem prime_le_top {n : Nat} (hn : n.Prime) (hlt : n < 2 ^ 64) : n ≤ 2 ^ 64 - 8 := by
  have hprime {d : Nat} (hd : 2 ≤ d) (hdn : d < n) : ¬ d ∣ n := by
    intro hdvd
    rcases hn.eq_one_or_self_of_dvd d hdvd with h | h
    · omega
    · omega
  by_contra hgt
  have h2 := hprime (d := 2) (by decide) (by omega)
  have h3 := hprime (d := 3) (by decide) (by omega)
  have h11 := hprime (d := 11) (by decide) (by omega)
  have h13 := hprime (d := 13) (by decide) (by omega)
  obtain ⟨t, ht⟩ : ∃ t, n = 2 ^ 64 - 1 - t := ⟨2 ^ 64 - 1 - n, by omega⟩
  have ht7 : t < 7 := by omega
  subst ht
  interval_cases t <;> omega

/-- For every prime some product leaves the loop: above `(2^32 - 1)^2` one that wraps to
    `2^64 - 7`. -/
theorem exists_exit {n : Nat} (hn : n.Prime) (hlt : n < 2 ^ 64) : ∃ k, 2 ≤ k ∧ k ≤ n ∧ n < k * k % 2 ^ 64 := by
  have h2 := hn.two_le
  by_cases hroot : n.sqrt + 1 < 2 ^ 32
  · have hsqrt : n.sqrt < n := Nat.sqrt_lt_self (by omega)
    have hpos : 0 < n.sqrt := Nat.sqrt_pos.mpr (by omega)
    have hsq : (n.sqrt + 1) * (n.sqrt + 1) < 2 ^ 64 := by
      have hmul : (n.sqrt + 1) * (n.sqrt + 1) ≤ (2 ^ 32 - 1) * (2 ^ 32 - 1) := Nat.mul_le_mul (by omega) (by omega)
      omega
    refine ⟨n.sqrt + 1, by omega, by omega, ?_⟩
    rw [Nat.mod_eq_of_lt hsq]
    exact Nat.lt_succ_sqrt n
  · have hbig : (2 ^ 32 - 1) * (2 ^ 32 - 1) ≤ n := Nat.le_sqrt.mp (by omega)
    have htop := prime_le_top hn hlt
    refine ⟨1852311383259529397, by decide, by omega, ?_⟩
    have hwrap : 1852311383259529397 * 1852311383259529397 % 2 ^ 64 = 2 ^ 64 - 7 := by decide
    omega

theorem primeLoop_prime {n : BitVec 64} {fuel : Nat} (hn : n.toNat.Prime) (hfuel : n.toNat ≤ fuel) :
    primeLoop n fuel 2#64 = some true := by
  have hlen := n.isLt
  have hexit := exists_exit hn hlen
  obtain ⟨h2, hle, hsq⟩ := Nat.find_spec hexit
  -- the first product that leaves the loop; no round before it finds a factor
  set k := Nat.find hexit with hk
  have hpass : ∀ j, 2 ≤ j → j < 2 + (k - 2) → Passes n j := by
    intro j hj hjk
    have hstay := Nat.find_min hexit (m := j) (by omega)
    constructor
    · by_contra hsqj
      exact hstay ⟨hj, by omega, by omega⟩
    · intro hdvd
      rcases hn.eq_one_or_self_of_dvd j hdvd with h | h
      · omega
      · omega
  have hrun := primeLoop_run (fuel - (k - 2)) (by decide) (by omega) hpass
  rw [Nat.sub_add_cancel (show k - 2 ≤ fuel by omega)] at hrun
  obtain ⟨rest, hrest⟩ : ∃ rest, fuel - (k - 2) = rest + 1 := ⟨fuel - (k - 2) - 1, by omega⟩
  rw [hrun, hrest, Nat.add_sub_cancel' h2]
  exact primeLoop_exit rest (by omega) hsq

/-- For every word, in at most `n` rounds. -/
theorem isPrime_eq (n : BitVec 64) {fuel : Nat} (hfuel : n.toNat ≤ fuel) :
    isPrime n fuel = some (decide n.toNat.Prime) := by
  unfold isPrime
  split
  · rename_i hsmall
    have hnot : ¬ n.toNat.Prime := by
      intro hn
      exact absurd hn.two_le (Nat.not_le_of_lt (BitVec.lt_def.mp hsmall))
    rw [decide_eq_false hnot]
  · rename_i hbig
    have h2 : 2 ≤ n.toNat := by
      rw [BitVec.not_lt, BitVec.le_def] at hbig
      exact hbig
    by_cases hn : n.toNat.Prime
    · rw [primeLoop_prime hn hfuel, decide_eq_true hn]
    · rw [primeLoop_composite h2 hn hfuel, decide_eq_false hn]

/-- A word so large that only a product that wraps leaves the loop. -/
theorem isPrime_top : isPrime 18446744073709551557#64 (2 ^ 64) = some (decide (Nat.Prime 18446744073709551557)) :=
  isPrime_eq 18446744073709551557#64 (by decide)

end CryptoChat.Crypto.Rsa
