/-
  CryptoChat.Crypto.Utils — the inverses, the hex codec and the padding of
  `core/utils.cpp`.

  `unpad` reads its vector from the back. A read past the front has no value, so the
  result is `none` when the code makes one.

  - `natAbs_gcd`: Euclid's loop, whose remainders keep a sign, has the divisor up to its sign.
  - `inverseMeets_iff`: `gcd` and `modInverse` are right, except on a negative number coprime to
    the modulus, whose inverse is missed.
  - `hex_codec`: the hex codec gives bytes back, and digits in lower case and in pairs.
  - `unpad_pad`: what `pad` appends is taken off again when it is at most 16 bytes.
  - `unpad_meets`: `unpad` does what its name says except on fewer than `v` bytes, all of
    them `v`, where it reads past the front.
-/

import CryptoChat.Lib.CheckedInt
import CryptoChat.Lib.Ctype
import Mathlib

namespace CryptoChat.Crypto.Utils

open CryptoChat.Lib Ctype CheckedInt

/-! ## Inverses -/

theorem natAbs_tmod_lt (a : Int) {b : Int} (hb : b ≠ 0) : (a.tmod b).natAbs < b.natAbs := by
  rw [Int.natAbs_tmod]
  exact Nat.mod_lt _ (Int.natAbs_pos.mpr hb)

/-- `while (b != 0)`. -/
def gcd (a b : Int) : Int := if b = 0 then a else gcd b (a.tmod b)
  termination_by b.natAbs
  decreasing_by exact natAbs_tmod_lt a ‹_›

/-- The candidates left; -1 when none is an inverse. -/
def findInverse {ε : Type} [Overflow ε] (a m : Int) : List Nat → Except ε Int
  | [] => return -1
  | x :: left => do if (← mul a x).tmod m = 1 then return x else findInverse a m left

def modInverse {ε : Type} [Overflow ε] (a : Int) (m : Nat) : Except ε Int :=
  findInverse (a.tmod m) m (List.range' 1 (m - 1))

theorem natAbs_gcd (a b : Int) : (gcd a b).natAbs = Int.gcd a b := by
  fun_induction gcd a b with
  | case1 a => rw [Int.gcd_zero_right]
  | case2 a b _ ih => rw [ih, Int.gcd, Int.natAbs_tmod, Nat.gcd_comm, ← Nat.gcd_rec, Nat.gcd_comm, ← Int.gcd]

/-- What is not positive has no multiple that leaves 1. -/
theorem findInverse_nonpos {ε : Type} [Overflow ε] {a : Int} {m : Nat} (h0 : a ≤ 0) (hlow : -(m : Int) < a)
    (hm : m ≤ 46340) {left : List Nat} (hleft : ∀ x ∈ left, x < m) :
    findInverse a m left = (.ok (-1) : Except ε Int) := by
  induction left with
  | nil => rfl
  | cons x left ih =>
    have hx := hleft x List.mem_cons_self
    have hbound : (-a) * x ≤ 46340 * 46340 := mul_le_mul (by omega) (by omega) (by omega) (by omega)
    have hprod : a * x ≤ 0 := mul_nonpos_of_nonpos_of_nonneg h0 (by omega)
    have hmul : mul a x = (.ok (a * x) : Except ε Int) := mul_ok ⟨by linarith, by omega⟩
    have hrest : (a * x).tmod m ≠ 1 := by
      have hneg := Int.tmod_nonneg (m : Int) (show 0 ≤ -(a * x) by omega)
      rw [Int.neg_tmod] at hneg
      omega
    rw [findInverse, hmul]
    simp only [Bind.bind, Except.bind, if_neg hrest]
    exact ih fun y hy => hleft y (List.mem_cons_of_mem x hy)

theorem modInverse_nonpos {ε : Type} [Overflow ε] {a : Int} {m : Nat} (h0 : a ≤ 0) (hpos : 0 < m) (hm : m ≤ 46340) :
    modInverse a m = (.ok (-1) : Except ε Int) := by
  have hrem : a.tmod m ≤ 0 := by
    have hneg := Int.tmod_nonneg (m : Int) (show 0 ≤ -a by omega)
    rw [Int.neg_tmod] at hneg
    omega
  refine findInverse_nonpos hrem (Int.lt_tmod_of_pos a (by omega)) hm ?_
  intro x hx
  have hmem := List.mem_range'_1.mp hx
  omega

theorem gcd_nonneg {a b : Int} (ha : 0 ≤ a) (hb : 0 ≤ b) : 0 ≤ gcd a b := by
  fun_induction gcd a b with
  | case1 a => exact ha
  | case2 a b _ ih => exact ih hb (Int.tmod_nonneg b ha)

/-- On remainders that are not negative the search stops at the first inverse, if there is one. -/
theorem findInverse_spec {ε : Type} [Overflow ε] {a : Int} {m : Nat} (h0 : 0 ≤ a) (hlt : a < m) (h2 : 2 ≤ m)
    (hm : m ≤ 46340) {left : List Nat} (hleft : ∀ x ∈ left, x < m) :
    (∃ x ∈ left, a * x ≡ 1 [ZMOD m] ∧ findInverse a m left = (.ok (x : Int) : Except ε Int)) ∨
      ((∀ x ∈ left, ¬ a * x ≡ 1 [ZMOD m]) ∧ findInverse a m left = (.ok (-1) : Except ε Int)) := by
  induction left with
  | nil => exact .inr ⟨fun x hx => absurd hx List.not_mem_nil, rfl⟩
  | cons x left ih =>
    have hx := hleft x List.mem_cons_self
    obtain ⟨hlow, hhigh⟩ := mul_bounds (x := a) (y := x) (a := 46340) (b := 46340) ⟨h0, by omega⟩ ⟨by omega, by omega⟩
    have hmul : mul a x = (.ok (a * x) : Except ε Int) := mul_ok ⟨by omega, by omega⟩
    have htest : (a * x).tmod m = 1 ↔ a * x ≡ 1 [ZMOD m] := by
      rw [Int.tmod_eq_emod_of_nonneg hlow, Int.ModEq, Int.emod_eq_of_lt (a := 1) (by omega) (by omega)]
    rw [findInverse, hmul]
    simp only [Bind.bind, Except.bind]
    split
    · rename_i hone
      exact .inl ⟨x, List.mem_cons_self, htest.mp hone, rfl⟩
    · rename_i hone
      rcases ih fun y hy => hleft y (List.mem_cons_of_mem x hy) with hfound | hnone
      · obtain ⟨y, hy, hinv, hres⟩ := hfound
        exact .inl ⟨y, List.mem_cons_of_mem x hy, hinv, hres⟩
      · refine .inr ⟨?_, hnone.2⟩
        intro y hy
        rcases List.mem_cons.mp hy with rfl | hy
        · exact mt htest.mpr hone
        · exact hnone.1 y hy

/-- `x` is the inverse of `a` in `[1, m)`. -/
def IsInverse (a : Int) (m : Nat) (x : Int) : Prop := 1 ≤ x ∧ x < m ∧ a * x ≡ 1 [ZMOD m]

variable {a x y : Int} {m : Nat}

theorem IsInverse.coprime (h : IsInverse a m x) : Int.gcd a m = 1 := by
  obtain ⟨-, -, hinv⟩ := h
  obtain ⟨k, hk⟩ := hinv.symm.dvd
  refine Int.isCoprime_iff_gcd_eq_one.mp ⟨x, -k, ?_⟩
  calc x * a + -k * m = a * x - m * k := by ring
    _ = 1 := by omega

theorem exists_isInverse (h2 : 2 ≤ m) (hgcd : Int.gcd a m = 1) : ∃ x, IsInverse a m x := by
  obtain ⟨u, v, huv⟩ := Int.isCoprime_iff_gcd_eq_one.mpr hgcd
  have hinv : a * u ≡ 1 [ZMOD m] := by
    refine Int.ModEq.symm (Int.modEq_iff_dvd.mpr ⟨-v, ?_⟩)
    calc a * u - 1 = u * a + v * m - 1 - m * v := by ring
      _ = m * -v := by rw [huv]; ring
  have hmod : a * (u % m) ≡ 1 [ZMOD m] := ((Int.mod_modEq u m).mul_left a).trans hinv
  have h0 := Int.emod_nonneg u (show (m : Int) ≠ 0 by omega)
  have hlt := Int.emod_lt_of_pos u (show 0 < (m : Int) by omega)
  have hne : u % m ≠ 0 := by
    intro hzero
    rw [hzero, mul_zero] at hmod
    have hdvd := Int.natCast_dvd_natCast.mp (show (m : Int) ∣ (1 : Nat) from hmod.dvd)
    have hle := Nat.le_of_dvd one_pos hdvd
    omega
  exact ⟨u % m, by omega, hlt, hmod⟩

theorem IsInverse.unique (hx : IsInverse a m x) (hy : IsInverse a m y) : y = x := by
  obtain ⟨hx1, hxm, hxinv⟩ := hx
  obtain ⟨hy1, hym, hyinv⟩ := hy
  have hmod : y ≡ x [ZMOD m] := by
    calc y = y * 1 := (mul_one y).symm
      _ ≡ y * (a * x) [ZMOD m] := (hxinv.mul_left y).symm
      _ = a * y * x := by ring
      _ ≡ 1 * x [ZMOD m] := hyinv.mul_right x
      _ = x := one_mul x
  rw [Int.ModEq, Int.emod_eq_of_lt (by omega) hym, Int.emod_eq_of_lt (by omega) hxm] at hmod
  exact hmod

theorem modInverse_nonneg {ε : Type} [Overflow ε] (h0 : 0 ≤ a) (h2 : 2 ≤ m) (hm : m ≤ 46340) :
    (∃ x, IsInverse a m x ∧ modInverse a m = (.ok x : Except ε Int)) ∨
      (Int.gcd a m ≠ 1 ∧ modInverse a m = (.ok (-1) : Except ε Int)) := by
  have hcast : a.tmod m = a % m := Int.tmod_eq_emod_of_nonneg h0
  have hrem : a % m ≡ a [ZMOD m] := Int.mod_modEq a m
  have hlow := Int.emod_nonneg a (show (m : Int) ≠ 0 by omega)
  have hhigh := Int.emod_lt_of_pos a (show 0 < (m : Int) by omega)
  have hrange : ∀ x ∈ List.range' 1 (m - 1), x < m := by
    intro x hx
    have hmem := List.mem_range'_1.mp hx
    omega
  rw [modInverse, hcast]
  rcases findInverse_spec (ε := ε) hlow hhigh h2 hm hrange with hfound | hnone
  · obtain ⟨x, hx, hinv, hres⟩ := hfound
    have hmem := List.mem_range'_1.mp hx
    exact .inl ⟨x, ⟨by omega, by omega, (hrem.mul_right x).symm.trans hinv⟩, hres⟩
  · refine .inr ⟨?_, hnone.2⟩
    intro hgcd
    obtain ⟨x, hx1, hxm, hinv⟩ := exists_isInverse h2 hgcd
    have hx : (x.toNat : Int) = x := Int.toNat_of_nonneg (by omega)
    have hmem : x.toNat ∈ List.range' 1 (m - 1) := List.mem_range'_1.mpr (by omega)
    refine hnone.1 x.toNat hmem ?_
    rw [hx]
    exact (hrem.mul_right x).trans hinv

/-- The two are right, and agree. -/
def InverseMeets (ε : Type) [Overflow ε] (a : Int) (m : Nat) : Prop :=
  (gcd a m = 1 ↔ Int.gcd a m = 1) ∧
    (Int.gcd a m = 1 →
      ∃ x, modInverse a m = (.ok x : Except ε Int) ∧ IsInverse a m x ∧ ∀ y, IsInverse a m y → y = x) ∧
    (Int.gcd a m ≠ 1 → modInverse a m = (.ok (-1) : Except ε Int)) ∧
    (gcd a m = 1 → modInverse a m ≠ (.ok (-1) : Except ε Int))

theorem coprime_of_gcd (h : gcd a m = 1) : Int.gcd a m = 1 := by
  rw [← natAbs_gcd, h]
  rfl

theorem inverseMeets_nonneg {ε : Type} [Overflow ε] (h0 : 0 ≤ a) (h2 : 2 ≤ m) (hm : m ≤ 46340) :
    InverseMeets ε a m := by
  have habs := natAbs_gcd a m
  have hsign := gcd_nonneg h0 (Int.natCast_nonneg m)
  have hgcd : gcd a m = 1 ↔ Int.gcd a m = 1 := by omega
  rcases modInverse_nonneg (ε := ε) h0 h2 hm with hfound | hnone
  · obtain ⟨x, hx, hres⟩ := hfound
    refine ⟨hgcd, fun _ => ⟨x, hres, hx, fun y hy => hx.unique hy⟩, fun hne => absurd hx.coprime hne, ?_⟩
    intro _ hminus
    rw [hres, Except.ok.injEq] at hminus
    have hx1 := hx.1
    omega
  · obtain ⟨hne, hres⟩ := hnone
    exact ⟨hgcd, fun hone => absurd hone hne, fun _ => hres, fun hone => absurd (hgcd.mp hone) hne⟩

theorem inverseMeets_common {ε : Type} [Overflow ε] (hneg : a ≤ 0) (hpos : 0 < m) (hm : m ≤ 46340)
    (hne : Int.gcd a m ≠ 1) : InverseMeets ε a m :=
  ⟨⟨coprime_of_gcd, fun hone => absurd hone hne⟩, fun hone => absurd hone hne,
    fun _ => modInverse_nonpos hneg hpos hm, fun hone => absurd (coprime_of_gcd hone) hne⟩

/-- For every `int` and every modulus whose products fit an `int`. -/
theorem inverseMeets_iff {ε : Type} [Overflow ε] (a : Int) {m : Nat} (h2 : 2 ≤ m) (hm : m ≤ 46340) :
    InverseMeets ε a m ↔ 0 ≤ a ∨ Int.gcd a m ≠ 1 := by
  constructor
  · intro hmeets
    by_contra hbad
    obtain ⟨hneg, hgcd⟩ := not_or.mp hbad
    obtain ⟨x, hres, hx, -⟩ := hmeets.2.1 (not_not.mp hgcd)
    rw [modInverse_nonpos (by omega) (by omega) hm, Except.ok.injEq] at hres
    have hx1 := hx.1
    omega
  · intro h
    rcases h with h0 | hne
    · exact inverseMeets_nonneg h0 h2 hm
    · rcases le_total 0 a with h0 | hneg
      · exact inverseMeets_nonneg h0 h2 hm
      · exact inverseMeets_common hneg (by omega) hm hne

/-- The demo's public exponent and its modulus. -/
theorem inverseMeets_seventeen : InverseMeets Unit 17 3120 ↔ (0 : Int) ≤ 17 ∨ Int.gcd 17 3120 ≠ 1 :=
  inverseMeets_iff 17 (by decide) (by decide)

/-- -5 has the inverse 5 modulo 26. `gcd` finds the two coprime and `modInverse` finds nothing. -/
theorem inverse_missed : ¬ ∀ (ε : Type) [Overflow ε] (a : Int) (m : Nat), 2 ≤ m → m ≤ 46340 → InverseMeets ε a m := by
  intro h
  have hmeets := h Unit (-5) 26 (by decide) (by decide)
  have hgcd : gcd (-5) 26 = 1 := by simp [gcd]
  exact hmeets.2.2.2 hgcd (modInverse_nonpos (by decide) (by decide) (by decide))

/-! ## Hex -/

/-- What the stream writes for a byte: `std::hex`, `std::setw(2)`, `std::setfill('0')`. -/
def hexByte (byte : Byte) : Bytes := ascii (List.leftpad 2 '0' (Nat.toDigits 16 byte.toNat))

def toHex (bytes : Bytes) : Bytes := bytes.flatMap hexByte

/-- The value of a digit of base 16. -/
def digit (c : Byte) : Option Nat :=
  if chr '0' ≤ c ∧ c ≤ chr '9' then some (c - chr '0').toNat
  else if chr 'a' ≤ c ∧ c ≤ chr 'f' then some ((c - chr 'a').toNat + 10)
  else if chr 'A' ≤ c ∧ c ≤ chr 'F' then some ((c - chr 'A').toNat + 10)
  else none

/-- The digits at the front, after those read as `acc`. -/
def digits (acc : Nat) : Bytes → Nat
  | [] => acc
  | c :: s =>
    match digit c with
    | some d => digits (acc * 16 + d) s
    | none => acc

/-- An optional `0x` before a digit. -/
def dropPrefix : Bytes → Bytes
  | z :: x :: d :: s =>
    if z = chr '0' ∧ (x = chr 'x' ∨ x = chr 'X') ∧ (digit d).isSome then d :: s else z :: x :: d :: s
  | s => s

/-- `std::strtol` to the base 16, on strings too short to overflow. -/
def strtol (s : Bytes) : Int :=
  match s.dropWhile isspace with
  | [] => 0
  | c :: s =>
    if c = chr '-' then -(digits 0 (dropPrefix s) : Int)
    else if c = chr '+' then digits 0 (dropPrefix s)
    else digits 0 (dropPrefix (c :: s))

/-- A last character without a second one is left out. -/
def fromHex : Bytes → Bytes
  | a :: b :: hex => BitVec.ofInt 8 (strtol [a, b]) :: fromHex hex
  | _ => []

/-- The digit the stream writes for `n`. -/
def hexDigit (n : Nat) : Byte := chr (Nat.digitChar n)

set_option maxRecDepth 4000 in
theorem hexByte_eq : ∀ byte : Byte, hexByte byte = [hexDigit (byte.toNat / 16), hexDigit (byte.toNat % 16)] := by
  decide

theorem digit_hexDigit : ∀ n < 16, digit (hexDigit n) = some n := by
  decide

theorem isxdigit_hexDigit : ∀ n < 16, isxdigit (hexDigit n) ∧ ¬ isupper (hexDigit n) := by
  decide

set_option maxRecDepth 4000 in
theorem hexDigit_digit : ∀ x : Byte, ∀ d ∈ digit x, d < 16 ∧ hexDigit d = tolower x := by
  decide

set_option maxRecDepth 4000 in
theorem isSome_digit : ∀ x : Byte, (digit x).isSome = isxdigit x := by
  decide

set_option maxRecDepth 4000 in
/-- A digit is read as such, not as a blank or a sign. -/
theorem digit_first : ∀ x : Byte, isxdigit x → isspace x = false ∧ x ≠ chr '-' ∧ x ≠ chr '+' := by
  decide

theorem exists_digit {x : Byte} (hx : isxdigit x) : ∃ d < 16, digit x = some d ∧ hexDigit d = tolower x := by
  rw [← isSome_digit] at hx
  obtain ⟨d, hd⟩ := Option.isSome_iff_exists.mp hx
  obtain ⟨hlt, hlower⟩ := hexDigit_digit x d hd
  exact ⟨d, hlt, hd, hlower⟩

theorem strtol_pair {x y : Byte} {d e : Nat} (hd : digit x = some d) (he : digit y = some e) :
    strtol [x, y] = (d * 16 + e : Nat) := by
  have hx : isxdigit x := by rw [← isSome_digit, hd, Option.isSome_some]
  obtain ⟨hspace, hminus, hplus⟩ := digit_first x hx
  have hdrop : [x, y].dropWhile isspace = [x, y] := List.dropWhile_cons_of_neg (by simp [hspace])
  have hread : digits 0 (dropPrefix [x, y]) = d * 16 + e := by simp [dropPrefix, digits, hd, he]
  rw [strtol, hdrop]
  simp only [if_neg hminus, if_neg hplus, hread]

/-- Two digits are the byte whose digits they are. -/
theorem toNat_strtol_pair {x y : Byte} {d e : Nat} (hd : digit x = some d) (he : digit y = some e) (hd16 : d < 16)
    (he16 : e < 16) : (BitVec.ofInt 8 (strtol [x, y])).toNat = d * 16 + e := by
  rw [strtol_pair hd he, BitVec.ofInt_natCast, BitVec.toNat_ofNat, Nat.mod_eq_of_lt (by omega)]

theorem fromHex_hexByte (byte : Byte) (hex : Bytes) : fromHex (hexByte byte ++ hex) = byte :: fromHex hex := by
  have hlt : byte.toNat < 256 := byte.isLt
  have hhigh := digit_hexDigit (byte.toNat / 16) (by omega)
  have hlow := digit_hexDigit (byte.toNat % 16) (by omega)
  have hval : BitVec.ofInt 8 (strtol [hexDigit (byte.toNat / 16), hexDigit (byte.toNat % 16)]) = byte := by
    apply BitVec.eq_of_toNat_eq
    rw [toNat_strtol_pair hhigh hlow (by omega) (by omega)]
    omega
  rw [hexByte_eq]
  exact congrArg (· :: fromHex hex) hval

theorem fromHex_toHex (bytes : Bytes) : fromHex (toHex bytes) = bytes := by
  induction bytes with
  | nil => rfl
  | cons byte bytes ih => rw [toHex, List.flatMap_cons, fromHex_hexByte, ← toHex, ih]

theorem length_toHex (bytes : Bytes) : (toHex bytes).length = 2 * bytes.length := by
  induction bytes with
  | nil => rfl
  | cons byte bytes ih =>
    rw [toHex, List.flatMap_cons, ← toHex, List.length_append, ih, hexByte_eq, List.length_cons]
    simp only [List.length_cons, List.length_nil]
    omega

theorem mem_toHex {bytes : Bytes} {ch : Byte} (hm : ch ∈ toHex bytes) : isxdigit ch ∧ ¬ isupper ch := by
  obtain ⟨byte, -, hch⟩ := List.mem_flatMap.mp hm
  have hlt : byte.toNat < 256 := byte.isLt
  rw [hexByte_eq] at hch
  rcases List.mem_cons.mp hch with rfl | hch
  · exact isxdigit_hexDigit _ (by omega)
  · rw [List.mem_singleton.mp hch]
    exact isxdigit_hexDigit _ (by omega)

/-- A pair of digits is written back in lower case. -/
theorem hexByte_pair {x y : Byte} (hx : isxdigit x) (hy : isxdigit y) :
    hexByte (BitVec.ofInt 8 (strtol [x, y])) = [tolower x, tolower y] := by
  obtain ⟨d, hd16, hd, hdx⟩ := exists_digit hx
  obtain ⟨e, he16, he, hey⟩ := exists_digit hy
  have hhigh : (d * 16 + e) / 16 = d := by omega
  have hlow : (d * 16 + e) % 16 = e := by omega
  rw [hexByte_eq, toNat_strtol_pair hd he hd16 he16, hhigh, hlow, hdx, hey]

theorem toHex_fromHex {hex : Bytes} (hhex : ∀ ch ∈ hex, isxdigit ch) :
    toHex (fromHex hex) = if hex.length % 2 = 1 then (hex.map tolower).dropLast else hex.map tolower := by
  fun_induction fromHex hex with
  | case1 a b hex ih =>
    have hlen : (a :: b :: hex).length % 2 = hex.length % 2 := by
      rw [List.length_cons, List.length_cons]
      omega
    rw [toHex, List.flatMap_cons, hexByte_pair (hhex a (by simp)) (hhex b (by simp)), ← toHex,
      ih fun ch hm => hhex ch (by simp [hm]), hlen, List.map_cons, List.map_cons]
    split
    · rename_i hodd
      have hne : hex.map tolower ≠ [] := by
        rw [ne_eq, List.map_eq_nil_iff]
        rintro rfl
        cases hodd
      rw [List.dropLast_cons_of_ne_nil (List.cons_ne_nil _ _), List.dropLast_cons_of_ne_nil hne]
      rfl
    · rfl
  | case2 hex hshort =>
    cases hex with
    | nil => rfl
    | cons a hex =>
      cases hex with
      | nil => rfl
      | cons b hex => exact (hshort a b hex rfl).elim

/-- What the two make of each other's results: bytes come back, and digits come back in lower
    case and in pairs. -/
theorem hex_codec :
    (∀ bytes, (toHex bytes).length = 2 * bytes.length ∧ (∀ ch ∈ toHex bytes, isxdigit ch ∧ ¬ isupper ch) ∧
      fromHex (toHex bytes) = bytes) ∧
    ∀ hex, (∀ ch ∈ hex, isxdigit ch) →
      toHex (fromHex hex) = if hex.length % 2 = 1 then (hex.map tolower).dropLast else hex.map tolower :=
  ⟨fun bytes => ⟨length_toHex bytes, fun _ hm => mem_toHex hm, fromHex_toHex bytes⟩, fun _ hhex => toHex_fromHex hhex⟩

/-- Five digits of either case, of which the last is lost. -/
theorem hex_codec_odd : toHex (fromHex (ascii "9fAB0".toList)) = ascii "9fab".toList :=
  hex_codec.2 (ascii "9fAB0".toList) (by decide)

theorem length_fromHex (hex : Bytes) : (fromHex hex).length = hex.length / 2 := by
  fun_induction fromHex hex with
  | case1 a b hex ih =>
    rw [List.length_cons, ih, List.length_cons, List.length_cons]
    omega
  | case2 hex hshort =>
    cases hex with
    | nil => rfl
    | cons a hex =>
      cases hex with
      | nil => simp
      | cons b hex => exact (hshort a b hex rfl).elim

/-! ## Padding -/

/-- `blockSize` is not 0: the code divides by it. -/
def pad (data : Bytes) (blockSize : Nat) : Bytes :=
  let paddingValue : Byte := BitVec.ofNat 8 (blockSize - data.length % blockSize)
  data ++ List.replicate paddingValue.toNat paddingValue

/-- `data[data.size() - 1 - i]`; in `size_t` the index wraps where it would be negative. -/
def readBack (data : Bytes) (i : Nat) : Option Byte :=
  if i < data.length then data[data.length - 1 - i]? else none

/-- The check of the padding bytes, which returns at the first that differs. -/
def checkPadding (data : Bytes) (paddingValue : Byte) : List Nat → Option Bool
  | [] => some true
  | i :: rest =>
    (readBack data i).bind fun byte => if byte ≠ paddingValue then some false else checkPadding data paddingValue rest

/-- Whether the padding was valid, and the vector afterwards. -/
def unpad (data : Bytes) : Option (Bool × Bytes) :=
  match data.getLast? with
  | none => some (false, data)
  | some paddingValue =>
    if paddingValue.toNat = 0 ∨ 16 < paddingValue.toNat then some (false, data)
    else (checkPadding data paddingValue (List.range paddingValue.toNat)).map fun ok =>
      if ok then (true, data.take (data.length - paddingValue.toNat)) else (false, data)

theorem readBack_eq (data : Bytes) (i : Nat) : readBack data i = data.reverse[i]? := by
  unfold readBack
  split
  · rename_i hi
    rw [List.getElem?_reverse hi]
  · rename_i hi
    have hrev : data.reverse.length ≤ i := by
      rw [List.length_reverse]
      exact Nat.le_of_not_lt hi
    rw [List.getElem?_eq_none hrev]

/-- The check on the bytes from the back on. -/
def checkFrom (v : Byte) : Nat → Bytes → Option Bool
  | 0, _ => some true
  | _ + 1, [] => none
  | n + 1, b :: back => if b ≠ v then some false else checkFrom v n back

theorem checkPadding_range' (data : Bytes) (v : Byte) (n k : Nat) :
    checkPadding data v (List.range' k n) = checkFrom v n (data.reverse.drop k) := by
  induction n generalizing k with
  | zero => rfl
  | succ n ih =>
    rw [List.range'_succ, checkPadding, readBack_eq, ← List.head?_drop, ih, ← List.tail_drop]
    cases data.reverse.drop k with
    | nil => rfl
    | cons b back => rfl

theorem checkFrom_eq_true {v : Byte} {n : Nat} {back : Bytes} :
    checkFrom v n back = some true ↔ List.replicate n v <+: back := by
  induction n generalizing back with
  | zero => simp [checkFrom]
  | succ n ih =>
    cases back with
    | nil => simp [checkFrom, List.replicate_succ]
    | cons b back =>
      rw [checkFrom, List.replicate_succ, List.cons_prefix_cons, ← ih]
      by_cases hb : b = v
      · simp [hb]
      · simp [hb, Ne.symm hb]

/-- The check reads past the front when all bytes are `v` and there are too few of them. -/
theorem checkFrom_eq_none {v : Byte} {n : Nat} {back : Bytes} :
    checkFrom v n back = none ↔ back.length < n ∧ ∀ b ∈ back, b = v := by
  induction n generalizing back with
  | zero => simp [checkFrom]
  | succ n ih =>
    cases back with
    | nil => simp [checkFrom]
    | cons b back =>
      rw [checkFrom, List.forall_mem_cons, List.length_cons]
      by_cases hb : b = v
      · simp [hb, ih]
      · simp [hb]

/-- `data` is `d` and `v` bytes `v` after it, with `v` from 1 to 16. -/
def Padded (data d : Bytes) : Prop :=
  ∃ v : Byte, 1 ≤ v.toNat ∧ v.toNat ≤ 16 ∧ data = d ++ List.replicate v.toNat v

/-- `data` is fewer than `v` bytes, all of them `v`, with `v` up to 16. -/
def Short (data : Bytes) : Prop :=
  ∃ v : Byte, data ≠ [] ∧ data.length < v.toNat ∧ v.toNat ≤ 16 ∧ ∀ b ∈ data, b = v

theorem unpad_of_last {data : Bytes} {v : Byte} (hlast : data.getLast? = some v) :
    unpad data = if v.toNat = 0 ∨ 16 < v.toNat then some (false, data)
      else (checkFrom v v.toNat data.reverse).map fun ok =>
        if ok then (true, data.take (data.length - v.toNat)) else (false, data) := by
  have hcheck : checkPadding data v (List.range v.toNat) = checkFrom v v.toNat data.reverse := by
    rw [List.range_eq_range', checkPadding_range', List.drop_zero]
  simp only [unpad, hlast, hcheck]

theorem unpad_eq_true {data d : Bytes} : unpad data = some (true, d) ↔ Padded data d := by
  constructor
  · intro h
    cases hlast : data.getLast? with
    | none => simp [unpad, hlast] at h
    | some v =>
      rw [unpad_of_last hlast] at h
      split at h
      · simp at h
      · rename_i hv
        obtain ⟨ok, hcheck, hd⟩ := Option.map_eq_some_iff.mp h
        cases ok with
        | false => simp at hd
        | true =>
          have hprefix := checkFrom_eq_true.mp hcheck
          have hsuffix : List.replicate v.toNat v <:+ data := by
            rw [← List.reverse_prefix, List.reverse_replicate]
            exact hprefix
          obtain ⟨front, rfl⟩ := hsuffix
          have hfront : front = d := by simpa using hd
          exact ⟨v, by omega, by omega, hfront ▸ rfl⟩
  · rintro ⟨v, h1, h16, rfl⟩
    have hlast : (d ++ List.replicate v.toNat v).getLast? = some v := by
      rw [List.getLast?_append, List.getLast?_replicate, if_neg (by omega)]
      rfl
    have hcheck : checkFrom v v.toNat (d ++ List.replicate v.toNat v).reverse = some true := by
      rw [checkFrom_eq_true, List.reverse_append, List.reverse_replicate]
      exact List.prefix_append _ _
    rw [unpad_of_last hlast, if_neg (by omega), hcheck]
    simp

theorem unpad_eq_false {data d : Bytes} (h : unpad data = some (false, d)) : d = data := by
  unfold unpad at h
  split at h
  · simpa using h.symm
  · split at h
    · simpa using h.symm
    · obtain ⟨ok, -, hd⟩ := Option.map_eq_some_iff.mp h
      cases ok with
      | false => simpa using hd.symm
      | true => simp at hd

theorem unpad_eq_none {data : Bytes} : unpad data = none ↔ Short data := by
  constructor
  · intro h
    cases hlast : data.getLast? with
    | none => simp [unpad, hlast] at h
    | some v =>
      rw [unpad_of_last hlast] at h
      split at h
      · cases h
      · rename_i hv
        obtain ⟨hlen, hall⟩ := checkFrom_eq_none.mp (Option.map_eq_none_iff.mp h)
        refine ⟨v, ?_, by simpa using hlen, by omega, by simpa using hall⟩
        rintro rfl
        cases hlast
  · rintro ⟨v, hne, hlen, h16, hall⟩
    have hlast : data.getLast? = some v := by
      rw [List.getLast?_eq_some_getLast hne, hall _ (List.getLast_mem hne)]
    have hcheck : checkFrom v v.toNat data.reverse = none := by
      rw [checkFrom_eq_none, List.length_reverse]
      exact ⟨hlen, fun b hb => hall b (List.mem_reverse.mp hb)⟩
    rw [unpad_of_last hlast, if_neg (by omega), hcheck]
    rfl

/-- What is asked of `unpad` on `data`: no read out of range, and either the padding is
    valid and taken off or the vector stays as it is. -/
structure Meets (data : Bytes) : Prop where
  in_range : unpad data ≠ none
  valid : ∀ d, unpad data = some (true, d) ↔ Padded data d
  invalid : (∀ d, ¬ Padded data d) → unpad data = some (false, data)

theorem unpad_meets (data : Bytes) : Meets data ↔ ¬ Short data := by
  constructor
  · intro h hshort
    exact h.in_range (unpad_eq_none.mpr hshort)
  · intro h
    refine ⟨fun hnone => h (unpad_eq_none.mp hnone), fun d => unpad_eq_true, ?_⟩
    intro hnot
    cases hunpad : unpad data with
    | none => exact absurd (unpad_eq_none.mp hunpad) h
    | some r =>
      obtain ⟨ok, d⟩ := r
      cases ok with
      | true => exact absurd (unpad_eq_true.mp hunpad) (hnot d)
      | false => rw [unpad_eq_false hunpad]

/-- One byte 5: the second read is out of range. -/
theorem unpad_five : ¬ ∀ data, Meets data := by
  intro h
  exact (h [5#8]).in_range rfl

/-! ## Unpadding what was padded -/

/-- How many bytes `pad` appends. -/
def padding (data : Bytes) (blockSize : Nat) : Nat := blockSize - data.length % blockSize

theorem padding_bounds (data : Bytes) {blockSize : Nat} (hpos : 1 ≤ blockSize) :
    1 ≤ padding data blockSize ∧ padding data blockSize ≤ blockSize ∧ blockSize ∣ data.length + padding data blockSize := by
  have hlt : data.length % blockSize < blockSize := Nat.mod_lt _ hpos
  refine ⟨?_, ?_, ?_⟩
  · unfold padding
    omega
  · unfold padding
    omega
  · refine ⟨data.length / blockSize + 1, ?_⟩
    have hdiv := Nat.div_add_mod data.length blockSize
    rw [Nat.mul_add, Nat.mul_one, padding]
    omega

/-- The number fits in a byte. -/
theorem toNat_padding (data : Bytes) {blockSize : Nat} (hpos : 1 ≤ blockSize) (hmax : blockSize ≤ 255) :
    (BitVec.ofNat 8 (padding data blockSize)).toNat = padding data blockSize := by
  obtain ⟨-, hle, -⟩ := padding_bounds data hpos
  rw [BitVec.toNat_ofNat, Nat.mod_eq_of_lt (by omega)]

theorem pad_eq (data : Bytes) {blockSize : Nat} (hpos : 1 ≤ blockSize) (hmax : blockSize ≤ 255) :
    pad data blockSize =
      data ++ List.replicate (padding data blockSize) (BitVec.ofNat 8 (padding data blockSize)) := by
  rw [pad, ← padding, toNat_padding data hpos hmax]

theorem padded_pad (data : Bytes) {blockSize : Nat} (hpos : 1 ≤ blockSize) (hmax : blockSize ≤ 255)
    (h16 : padding data blockSize ≤ 16) : Padded (pad data blockSize) data := by
  obtain ⟨h1, -, -⟩ := padding_bounds data hpos
  have hnat := toNat_padding data hpos hmax
  refine ⟨BitVec.ofNat 8 (padding data blockSize), by omega, by omega, ?_⟩
  rw [pad_eq data hpos hmax, hnat]

/-- More than 16 bytes are not taken off. -/
theorem unpad_pad_long (data : Bytes) {blockSize : Nat} (hpos : 1 ≤ blockSize) (hmax : blockSize ≤ 255)
    (h16 : 16 < padding data blockSize) : unpad (pad data blockSize) = some (false, pad data blockSize) := by
  have hlast : (pad data blockSize).getLast? = some (BitVec.ofNat 8 (padding data blockSize)) := by
    rw [pad_eq data hpos hmax, List.getLast?_append, List.getLast?_replicate, if_neg (by omega)]
    rfl
  have hnat := toNat_padding data hpos hmax
  rw [unpad_of_last hlast, if_pos (by omega)]

/-- For every block size up to 255: what `pad` appends, and what `unpad` makes of it. -/
theorem unpad_pad (data : Bytes) {blockSize : Nat} (hpos : 1 ≤ blockSize) (hmax : blockSize ≤ 255) :
    ∃ p, 1 ≤ p ∧ p ≤ blockSize ∧ pad data blockSize = data ++ List.replicate p (BitVec.ofNat 8 p) ∧
      blockSize ∣ (pad data blockSize).length ∧
      (p ≤ 16 → unpad (pad data blockSize) = some (true, data)) ∧
      (16 < p → unpad (pad data blockSize) = some (false, pad data blockSize)) := by
  obtain ⟨h1, hle, hdvd⟩ := padding_bounds data hpos
  have hpad := pad_eq data hpos hmax
  refine ⟨padding data blockSize, h1, hle, hpad, ?_, ?_, unpad_pad_long data hpos hmax⟩
  · rw [hpad, List.length_append, List.length_replicate]
    exact hdvd
  · intro h16
    exact unpad_eq_true.mpr (padded_pad data hpos hmax h16)

/-- A block size of 32 and 20 bytes, where 12 are appended. -/
theorem unpad_pad_twelve : ∃ p, 1 ≤ p ∧ p ≤ 32 ∧
    pad (List.replicate 20 0xab#8) 32 = List.replicate 20 0xab#8 ++ List.replicate p (BitVec.ofNat 8 p) ∧
      32 ∣ (pad (List.replicate 20 0xab#8) 32).length ∧
      (p ≤ 16 → unpad (pad (List.replicate 20 0xab#8) 32) = some (true, List.replicate 20 0xab#8)) ∧
      (16 < p → unpad (pad (List.replicate 20 0xab#8) 32) = some (false, pad (List.replicate 20 0xab#8) 32)) :=
  unpad_pad _ (by decide) (by decide)

/-- No bytes and a block size of 17: `unpad` does not take 17 bytes off. -/
theorem unpad_seventeen : ¬ ∀ (data : Bytes) (blockSize : Nat), 1 ≤ blockSize → blockSize ≤ 255 →
    unpad (pad data blockSize) = some (true, data) := by
  intro h
  have hnil := h [] 17 (by decide) (by decide)
  have hfalse : unpad (pad [] 17) = some (false, pad [] 17) := by decide
  rw [hfalse] at hnil
  cases hnil

end CryptoChat.Crypto.Utils
