/-
  CryptoChat.Crypto.Fips197 — the cipher FIPS 197 specifies, written from the
  standard's own terms and with no table: bytes are elements of GF(2^8) modulo
  `X^8 + X^4 + X^3 + X + 1` (`modulus_eq`), `SubBytes` is the affine map applied to
  the inverse, `MixColumns` the circulant matrix (02 03 01 01), `Rcon[j]` the power
  `X^(j-1)`, and the schedule a recursion over words of four bytes.
-/

import CryptoChat.Lib.Bytes
import CryptoChat.Lib.Gf2

namespace CryptoChat.Crypto.Fips197

open CryptoChat.Lib

/-! ## The field -/

/-- The low part of the modulus. -/
def fieldPoly : Byte := 0x1b#8

open Polynomial in
theorem modulus_eq : Gf2.modulus fieldPoly = X ^ 8 + X ^ 4 + X ^ 3 + X + 1 := by
  have hp : Gf2.toPoly fieldPoly = X ^ 0 + X ^ 1 + X ^ 3 + X ^ 4 := by
    simp only [Gf2.toPoly, fieldPoly, Finset.sum_range_succ, Finset.sum_range_zero]
    simp
  rw [Gf2.modulus, hp]
  ring

def gmul (a b : Byte) : Byte := Gf2.mul fieldPoly a b

def ginv (a : Byte) : Byte := Gf2.inv fieldPoly a

/-! ## Transformations -/

/-- The affine map: bit `i` is `b_i + b_(i+4) + b_(i+5) + b_(i+6) + b_(i+7) + c_i`, indices modulo 8. -/
def affine (b : Byte) : Byte :=
  BitVec.ofBoolListLE ((List.range 8).map fun i =>
    b.getLsbD i ^^ b.getLsbD ((i + 4) % 8) ^^ b.getLsbD ((i + 5) % 8) ^^ b.getLsbD ((i + 6) % 8) ^^
      b.getLsbD ((i + 7) % 8) ^^ (0x63#8).getLsbD i)

def sBox (b : Byte) : Byte := affine (ginv b)

/-- `s r c`: row `r`, column `c`. -/
abbrev State := Fin 4 → Fin 4 → Byte

/-- `[a0, a1, a2, a3]`. -/
abbrev Word := Fin 4 → Byte

def subBytes (s : State) : State := fun r c => sBox (s r c)

/-- Row `r` rotated left by `r`. -/
def shiftRows (s : State) : State := fun r c => s r (c + r)

/-- A circulant matrix from its first row. -/
def circulant (a : Word) : Fin 4 → Fin 4 → Byte := fun i j => a (j - i)

def mixMatrix : Fin 4 → Fin 4 → Byte := circulant ![0x02#8, 0x03#8, 0x01#8, 0x01#8]

def mixColumns (s : State) : State := fun r c => Gf2.matVec fieldPoly mixMatrix (fun k => s k c) r

def addRoundKey (w : Nat → Word) (round : Nat) (s : State) : State := fun r c => s r c ^^^ w (4 * round + c) r

/-! ## Key expansion -/

/-- A sequence rotated left by one. -/
def rotateLeft {α : Type} {n : Nat} (a : Fin (n + 1) → α) : Fin (n + 1) → α := fun k => a (k + 1)

def rotWord (a : Word) : Word := rotateLeft a

def subWord (a : Word) : Word := fun k => sBox (a k)

def xorWord (a b : Word) : Word := fun k => a k ^^^ b k

/-- `[X^(j-1), 0, 0, 0]`. -/
def rcon (j : Nat) : Word := ![(Gf2.xtimes fieldPoly)^[j - 1] 1#8, 0#8, 0#8, 0#8]

/-- Word `i` of the schedule of a key of `nk` words. -/
def keyWord (nk : Nat) (key : Bytes) (i : Nat) : Word :=
  if h : nk ≤ i ∧ 0 < nk then
    let temp := keyWord nk key (i - 1)
    let temp :=
      if i % nk = 0 then xorWord (subWord (rotWord temp)) (rcon (i / nk))
      else if 6 < nk ∧ i % nk = 4 then subWord temp
      else temp
    xorWord (keyWord nk key (i - nk)) temp
  else fun k => key.getD (4 * i + k) 0#8
termination_by i
decreasing_by all_goals omega

/-! ## The cipher -/

/-- The state before the last round, after `n` of the rounds before it. -/
def rounds (w : Nat → Word) (s : State) : Nat → State
  | 0 => addRoundKey w 0 s
  | n + 1 => addRoundKey w (n + 1) (mixColumns (shiftRows (subBytes (rounds w s n))))

def cipherState (nr : Nat) (w : Nat → Word) (s : State) : State :=
  addRoundKey w nr (shiftRows (subBytes (rounds w s (nr - 1))))

/-- Byte `n` of a block is at row `n % 4`, column `n / 4`. -/
def toState (block : Bytes) : State := fun r c => block.getD (r + 4 * c) 0#8

def ofState (s : State) : Bytes := List.ofFn fun n : Fin 16 => s ⟨n % 4, by omega⟩ ⟨n / 4, by omega⟩

/-- The encryption of a 16-byte block under a key of 4, 6 or 8 words (10, 12 or 14 rounds). -/
def cipher (key block : Bytes) : Bytes :=
  let nk := key.length / 4
  ofState (cipherState (nk + 6) (keyWord nk key) (toState block))

end CryptoChat.Crypto.Fips197
