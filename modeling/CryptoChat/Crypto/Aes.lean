/-
  CryptoChat.Crypto.Aes — the AES block cipher of `modern/symmetric/block/AES.cpp`:
  the tables, the key expansion into the 240-byte round-key array, and the block
  encryptor and decryptor over the 4×4 byte state (`state[row][column]`).

  An `AES` object carries the key size its constructor accepted, so the round count
  and every index into the round-key array are in range by construction.
-/

import CryptoChat.Lib.Bytes
import Mathlib

namespace CryptoChat.Crypto.Aes

open CryptoChat.Lib

/-! ## Tables -/

set_option maxRecDepth 2048 in
def sBoxTable : Vector Byte 256 :=
  #v[
    0x63, 0x7c, 0x77, 0x7b, 0xf2, 0x6b, 0x6f, 0xc5, 0x30, 0x01, 0x67, 0x2b, 0xfe, 0xd7, 0xab, 0x76,
    0xca, 0x82, 0xc9, 0x7d, 0xfa, 0x59, 0x47, 0xf0, 0xad, 0xd4, 0xa2, 0xaf, 0x9c, 0xa4, 0x72, 0xc0,
    0xb7, 0xfd, 0x93, 0x26, 0x36, 0x3f, 0xf7, 0xcc, 0x34, 0xa5, 0xe5, 0xf1, 0x71, 0xd8, 0x31, 0x15,
    0x04, 0xc7, 0x23, 0xc3, 0x18, 0x96, 0x05, 0x9a, 0x07, 0x12, 0x80, 0xe2, 0xeb, 0x27, 0xb2, 0x75,
    0x09, 0x83, 0x2c, 0x1a, 0x1b, 0x6e, 0x5a, 0xa0, 0x52, 0x3b, 0xd6, 0xb3, 0x29, 0xe3, 0x2f, 0x84,
    0x53, 0xd1, 0x00, 0xed, 0x20, 0xfc, 0xb1, 0x5b, 0x6a, 0xcb, 0xbe, 0x39, 0x4a, 0x4c, 0x58, 0xcf,
    0xd0, 0xef, 0xaa, 0xfb, 0x43, 0x4d, 0x33, 0x85, 0x45, 0xf9, 0x02, 0x7f, 0x50, 0x3c, 0x9f, 0xa8,
    0x51, 0xa3, 0x40, 0x8f, 0x92, 0x9d, 0x38, 0xf5, 0xbc, 0xb6, 0xda, 0x21, 0x10, 0xff, 0xf3, 0xd2,
    0xcd, 0x0c, 0x13, 0xec, 0x5f, 0x97, 0x44, 0x17, 0xc4, 0xa7, 0x7e, 0x3d, 0x64, 0x5d, 0x19, 0x73,
    0x60, 0x81, 0x4f, 0xdc, 0x22, 0x2a, 0x90, 0x88, 0x46, 0xee, 0xb8, 0x14, 0xde, 0x5e, 0x0b, 0xdb,
    0xe0, 0x32, 0x3a, 0x0a, 0x49, 0x06, 0x24, 0x5c, 0xc2, 0xd3, 0xac, 0x62, 0x91, 0x95, 0xe4, 0x79,
    0xe7, 0xc8, 0x37, 0x6d, 0x8d, 0xd5, 0x4e, 0xa9, 0x6c, 0x56, 0xf4, 0xea, 0x65, 0x7a, 0xae, 0x08,
    0xba, 0x78, 0x25, 0x2e, 0x1c, 0xa6, 0xb4, 0xc6, 0xe8, 0xdd, 0x74, 0x1f, 0x4b, 0xbd, 0x8b, 0x8a,
    0x70, 0x3e, 0xb5, 0x66, 0x48, 0x03, 0xf6, 0x0e, 0x61, 0x35, 0x57, 0xb9, 0x86, 0xc1, 0x1d, 0x9e,
    0xe1, 0xf8, 0x98, 0x11, 0x69, 0xd9, 0x8e, 0x94, 0x9b, 0x1e, 0x87, 0xe9, 0xce, 0x55, 0x28, 0xdf,
    0x8c, 0xa1, 0x89, 0x0d, 0xbf, 0xe6, 0x42, 0x68, 0x41, 0x99, 0x2d, 0x0f, 0xb0, 0x54, 0xbb, 0x16]

set_option maxRecDepth 2048 in
def invSBoxTable : Vector Byte 256 :=
  #v[
    0x52, 0x09, 0x6a, 0xd5, 0x30, 0x36, 0xa5, 0x38, 0xbf, 0x40, 0xa3, 0x9e, 0x81, 0xf3, 0xd7, 0xfb,
    0x7c, 0xe3, 0x39, 0x82, 0x9b, 0x2f, 0xff, 0x87, 0x34, 0x8e, 0x43, 0x44, 0xc4, 0xde, 0xe9, 0xcb,
    0x54, 0x7b, 0x94, 0x32, 0xa6, 0xc2, 0x23, 0x3d, 0xee, 0x4c, 0x95, 0x0b, 0x42, 0xfa, 0xc3, 0x4e,
    0x08, 0x2e, 0xa1, 0x66, 0x28, 0xd9, 0x24, 0xb2, 0x76, 0x5b, 0xa2, 0x49, 0x6d, 0x8b, 0xd1, 0x25,
    0x72, 0xf8, 0xf6, 0x64, 0x86, 0x68, 0x98, 0x16, 0xd4, 0xa4, 0x5c, 0xcc, 0x5d, 0x65, 0xb6, 0x92,
    0x6c, 0x70, 0x48, 0x50, 0xfd, 0xed, 0xb9, 0xda, 0x5e, 0x15, 0x46, 0x57, 0xa7, 0x8d, 0x9d, 0x84,
    0x90, 0xd8, 0xab, 0x00, 0x8c, 0xbc, 0xd3, 0x0a, 0xf7, 0xe4, 0x58, 0x05, 0xb8, 0xb3, 0x45, 0x06,
    0xd0, 0x2c, 0x1e, 0x8f, 0xca, 0x3f, 0x0f, 0x02, 0xc1, 0xaf, 0xbd, 0x03, 0x01, 0x13, 0x8a, 0x6b,
    0x3a, 0x91, 0x11, 0x41, 0x4f, 0x67, 0xdc, 0xea, 0x97, 0xf2, 0xcf, 0xce, 0xf0, 0xb4, 0xe6, 0x73,
    0x96, 0xac, 0x74, 0x22, 0xe7, 0xad, 0x35, 0x85, 0xe2, 0xf9, 0x37, 0xe8, 0x1c, 0x75, 0xdf, 0x6e,
    0x47, 0xf1, 0x1a, 0x71, 0x1d, 0x29, 0xc5, 0x89, 0x6f, 0xb7, 0x62, 0x0e, 0xaa, 0x18, 0xbe, 0x1b,
    0xfc, 0x56, 0x3e, 0x4b, 0xc6, 0xd2, 0x79, 0x20, 0x9a, 0xdb, 0xc0, 0xfe, 0x78, 0xcd, 0x5a, 0xf4,
    0x1f, 0xdd, 0xa8, 0x33, 0x88, 0x07, 0xc7, 0x31, 0xb1, 0x12, 0x10, 0x59, 0x27, 0x80, 0xec, 0x5f,
    0x60, 0x51, 0x7f, 0xa9, 0x19, 0xb5, 0x4a, 0x0d, 0x2d, 0xe5, 0x7a, 0x9f, 0x93, 0xc9, 0x9c, 0xef,
    0xa0, 0xe0, 0x3b, 0x4d, 0xae, 0x2a, 0xf5, 0xb0, 0xc8, 0xeb, 0xbb, 0x3c, 0x83, 0x53, 0x99, 0x61,
    0x17, 0x2b, 0x04, 0x7e, 0xba, 0x77, 0xd6, 0x26, 0xe1, 0x69, 0x14, 0x63, 0x55, 0x21, 0x0c, 0x7d]

def rcon : Vector Byte 11 := #v[0x8d, 0x01, 0x02, 0x04, 0x08, 0x10, 0x20, 0x40, 0x80, 0x1b, 0x36]

def sBox (x : Byte) : Byte := sBoxTable.get x.toFin

def invSBox (x : Byte) : Byte := invSBoxTable.get x.toFin

/-! ## Bytes and words -/

def xtime (x : Byte) : Byte := (x <<< 1) ^^^ (((x >>> 7) &&& 1#8) * 0x1b#8)

def multiply (x y : Byte) : Byte :=
  ((List.range 8).foldl (fun (res, x) i => (if (y >>> i) &&& 1#8 ≠ 0#8 then res ^^^ x else res, xtime x))
    (0#8, x)).1

/-- `std::array<uint8_t, MAX_AES_SCHEDULE_SIZE>`. -/
abbrev KeySchedule := Vector Byte 240

/-- Four bytes loaded into a `uint32_t`, the first one most significant. -/
def loadWord (b0 b1 b2 b3 : Byte) : BitVec 32 :=
  (b0.setWidth 32 <<< 24) ||| (b1.setWidth 32 <<< 16) ||| (b2.setWidth 32 <<< 8) ||| b3.setWidth 32

def getWord (keySchedule : KeySchedule) (index : Fin 60) : BitVec 32 :=
  let start := index.val * 4
  loadWord keySchedule[start] keySchedule[start + 1] keySchedule[start + 2] keySchedule[start + 3]

/-- Byte `k` of a word, counted from the most significant one. -/
def wordByte (word : BitVec 32) (k : Fin 4) : Byte := ((word >>> (24 - 8 * k.val)) &&& 0xff#32).setWidth 8

def setWord (keySchedule : KeySchedule) (index : Fin 60) (word : BitVec 32) : KeySchedule :=
  let start := index.val * 4
  (((keySchedule.set start (wordByte word 0)).set (start + 1) (wordByte word 1)).set (start + 2)
    (wordByte word 2)).set (start + 3) (wordByte word 3)

def subWord (word : BitVec 32) : BitVec 32 :=
  loadWord (sBox (wordByte word 0)) (sBox (wordByte word 1)) (sBox (wordByte word 2)) (sBox (wordByte word 3))

/-! ## The object -/

/-- An `AES` object past its constructor: the key size is one of the three it accepts. -/
structure AES where
  mKeySizeBytes : Nat
  mRoundKeys : KeySchedule
  validSize : mKeySizeBytes = 16 ∨ mKeySizeBytes = 24 ∨ mKeySizeBytes = 32

namespace AES

/-- The constructor: another size throws. -/
def new (keySizeBytes : Nat) : Except String AES :=
  if h : keySizeBytes = 16 ∨ keySizeBytes = 24 ∨ keySizeBytes = 32 then
    .ok ⟨keySizeBytes, Vector.replicate 240 0#8, h⟩
  else .error "Invalid AES key size"

def nk (a : AES) : Nat := a.mKeySizeBytes / 4

/-- `Nr`, as the encryptor and the decryptor compute it. -/
def nr (a : AES) : Nat := a.mKeySizeBytes / 4 + 6

theorem nk_cases (a : AES) : a.mKeySizeBytes = 4 * a.nk ∧ (a.nk = 4 ∨ a.nk = 6 ∨ a.nk = 8) := by
  have := a.validSize
  unfold nk; omega

theorem nr_eq (a : AES) : a.nr = a.nk + 6 := rfl

theorem nr_lt (a : AES) : a.nr < 15 := by
  have := a.validSize
  unfold nr; omega

theorem nr_pred_lt (a : AES) : a.nr - 1 < 15 := by
  have := a.nr_lt
  omega

end AES

/-! ## Key expansion -/

/-- `Nr`, as `keyExpansion` computes it from `Nk`. -/
def roundsOf (nk : Nat) : Nat := if nk = 4 then 10 else if nk = 6 then 12 else 14

theorem roundsOf_le (nk : Nat) : 4 * (roundsOf nk + 1) ≤ 60 := by unfold roundsOf; split <;> [simp; split <;> simp]

theorem nk_le (a : AES) : a.nk ≤ 60 := by have := a.nk_cases; omega

/-- The first loop: word `i` is bytes `4 i .. 4 i + 3` of the key. -/
def loadKey (key : Bytes) (nk : Nat) (hn : nk ≤ 60) (ks : KeySchedule) : KeySchedule :=
  Nat.fold nk (fun i hi ks => setWord ks ⟨i, by omega⟩
    (loadWord (key.getD (i * 4) 0#8) (key.getD (i * 4 + 1) 0#8) (key.getD (i * 4 + 2) 0#8)
      (key.getD (i * 4 + 3) 0#8))) ks

/-- `temp` after the two cases of the second loop. -/
def expandWord (nk i : Nat) (temp : BitVec 32) : BitVec 32 :=
  if i % nk = 0 then
    subWord ((temp <<< 8) ||| (temp >>> 24)) ^^^ ((rcon.getD (i / nk) 0#8).setWidth 32 <<< 24)
  else if 6 < nk ∧ i % nk = 4 then subWord temp
  else temp

/-- The second loop, over `i = nk + t` for the first `n` values of `t`. -/
def expandKey (nk n : Nat) (hn : nk + n ≤ 60) (ks : KeySchedule) : KeySchedule :=
  Nat.fold n (fun t ht ks => setWord ks ⟨nk + t, by omega⟩
    (getWord ks ⟨nk + t - nk, by omega⟩ ^^^ expandWord nk (nk + t) (getWord ks ⟨nk + t - 1, by omega⟩))) ks

namespace AES

theorem totalWords_le (a : AES) : a.nk + (4 * (roundsOf a.nk + 1) - a.nk) ≤ 60 := by
  have := roundsOf_le a.nk
  have := nk_le a
  omega

def keyExpansion (a : AES) (key : Bytes) : AES :=
  let ks := Vector.replicate 240 0#8
  let ks := loadKey key a.nk (nk_le a) ks
  { a with mRoundKeys := expandKey a.nk (4 * (roundsOf a.nk + 1) - a.nk) a.totalWords_le ks }

/-- What `setKey` does to the object, and whether it throws. -/
def setKey (a : AES) (key : Bytes) : Except String Unit × AES :=
  if key.length ≠ a.mKeySizeBytes then (.error "Key size does not match the initialized size", a)
  else (.ok (), a.keyExpansion key)

end AES

/-! ## Rounds -/

/-- `uint8_t[4][4]`, indexed by row and column. -/
abbrev State := Vector (Vector Byte 4) 4

namespace State

def ofFn (f : Fin 4 → Fin 4 → Byte) : State := Vector.ofFn fun i => Vector.ofFn fun j => f i j

/-- `state[i][j]`. -/
def get (s : State) (i j : Fin 4) : Byte := s[i][j]

/-- `state[i][j] = b`. -/
def put (s : State) (i j : Fin 4) (b : Byte) : State := s.set i (s[i].set j b)

@[simp] theorem get_ofFn (f : Fin 4 → Fin 4 → Byte) (i j : Fin 4) : (ofFn f).get i j = f i j := by
  simp [ofFn, get]

@[simp] theorem get_put (s : State) (i j k l : Fin 4) (b : Byte) :
    (s.put i j b).get k l = if k = i ∧ l = j then b else s.get k l := by
  by_cases hk : k = i
  · subst hk
    by_cases hl : l = j
    · subst hl; simp [put, get]
    · have : j.val ≠ l.val := fun h => hl (Fin.ext h.symm)
      simp [put, get, hl, this]
  · have : i.val ≠ k.val := fun h => hk (Fin.ext h.symm)
    simp [put, get, hk, this]

theorem ext {s t : State} (h : ∀ i j, s.get i j = t.get i j) : s = t := by
  apply Vector.ext
  intro i hi
  apply Vector.ext
  intro j hj
  exact h ⟨i, hi⟩ ⟨j, hj⟩

end State

def subBytes (s : State) : State := .ofFn fun i j => sBox (s.get i j)

def shiftRows (s : State) : State :=
  -- row 1 left by 1
  let temp := s.get 1 0
  let s := s.put 1 0 (s.get 1 1)
  let s := s.put 1 1 (s.get 1 2)
  let s := s.put 1 2 (s.get 1 3)
  let s := s.put 1 3 temp
  -- row 2 left by 2
  let temp := s.get 2 0
  let temp2 := s.get 2 1
  let s := s.put 2 0 (s.get 2 2)
  let s := s.put 2 1 (s.get 2 3)
  let s := s.put 2 2 temp
  let s := s.put 2 3 temp2
  -- row 3 right by 1
  let temp := s.get 3 3
  let s := s.put 3 3 (s.get 3 2)
  let s := s.put 3 2 (s.get 3 1)
  let s := s.put 3 1 (s.get 3 0)
  s.put 3 0 temp

theorem get_shiftRows (s : State) (i j : Fin 4) : (shiftRows s).get i j = s.get i (j + i) := by
  fin_cases i <;> fin_cases j <;> simp [shiftRows]

def addRoundKey (ks : KeySchedule) (round : Fin 15) (s : State) : State :=
  .ofFn fun j i => s.get j i ^^^ ks[round.val * 16 + i.val * 4 + j.val]

/-- Column `i` after `mixColumns`, from its bytes before. -/
def mixColumn (s0 s1 s2 s3 : Byte) : Fin 4 → Byte
  | 0 => xtime s0 ^^^ (xtime s1 ^^^ s1) ^^^ s2 ^^^ s3
  | 1 => s0 ^^^ xtime s1 ^^^ (xtime s2 ^^^ s2) ^^^ s3
  | 2 => s0 ^^^ s1 ^^^ xtime s2 ^^^ (xtime s3 ^^^ s3)
  | 3 => (xtime s0 ^^^ s0) ^^^ s1 ^^^ s2 ^^^ xtime s3

def mixColumns (s : State) : State := .ofFn fun j i => mixColumn (s.get 0 i) (s.get 1 i) (s.get 2 i) (s.get 3 i) j

def invSubBytes (s : State) : State := .ofFn fun i j => invSBox (s.get i j)

def invShiftRows (s : State) : State :=
  -- row 1 right by 1
  let temp := s.get 1 3
  let s := s.put 1 3 (s.get 1 2)
  let s := s.put 1 2 (s.get 1 1)
  let s := s.put 1 1 (s.get 1 0)
  let s := s.put 1 0 temp
  -- row 2 right by 2
  let temp := s.get 2 3
  let temp2 := s.get 2 2
  let s := s.put 2 3 (s.get 2 1)
  let s := s.put 2 2 (s.get 2 0)
  let s := s.put 2 1 temp
  let s := s.put 2 0 temp2
  -- row 3 right by 3
  let temp := s.get 3 0
  let s := s.put 3 0 (s.get 3 1)
  let s := s.put 3 1 (s.get 3 2)
  let s := s.put 3 2 (s.get 3 3)
  s.put 3 3 temp

theorem get_invShiftRows (s : State) (i j : Fin 4) : (invShiftRows s).get i j = s.get i (j - i) := by
  fin_cases i <;> fin_cases j <;> simp [invShiftRows] <;> rfl

/-- Column `i` after `invMixColumns`, from its bytes before. -/
def invMixColumn (a b c d : Byte) : Fin 4 → Byte
  | 0 => multiply a 0x0e ^^^ multiply b 0x0b ^^^ multiply c 0x0d ^^^ multiply d 0x09
  | 1 => multiply a 0x09 ^^^ multiply b 0x0e ^^^ multiply c 0x0b ^^^ multiply d 0x0d
  | 2 => multiply a 0x0d ^^^ multiply b 0x09 ^^^ multiply c 0x0e ^^^ multiply d 0x0b
  | 3 => multiply a 0x0b ^^^ multiply b 0x0d ^^^ multiply c 0x09 ^^^ multiply d 0x0e

def invMixColumns (s : State) : State := .ofFn fun j i => invMixColumn (s.get 0 i) (s.get 1 i) (s.get 2 i) (s.get 3 i) j

/-! ## Blocks -/

/-- `state[j][i] = block[i * 4 + j]`. -/
def loadState (block : Bytes) : State := .ofFn fun j i => block.getD (i.val * 4 + j.val) 0#8

/-- `output[i * 4 + j] = state[j][i]`. -/
def storeState (s : State) : Bytes := (List.finRange 4).flatMap fun i => (List.finRange 4).map fun j => s.get j i

/-- The main rounds of the encryptor, `1 .. n`. -/
def encryptRounds (ks : KeySchedule) (n : Nat) (hn : n < 15) (s : State) : State :=
  Nat.fold n (fun t ht s => addRoundKey ks ⟨t + 1, by omega⟩ (mixColumns (shiftRows (subBytes s)))) s

/-- The main rounds of the decryptor, `n .. 1`. -/
def decryptRounds (ks : KeySchedule) (n : Nat) (hn : n < 15) (s : State) : State :=
  Nat.foldRev n (fun t ht s => invMixColumns (addRoundKey ks ⟨t + 1, by omega⟩ (invSubBytes (invShiftRows s)))) s

namespace AES

def encryptState (a : AES) (s : State) : State :=
  let s := addRoundKey a.mRoundKeys 0 s
  let s := encryptRounds a.mRoundKeys (a.nr - 1) a.nr_pred_lt s
  addRoundKey a.mRoundKeys ⟨a.nr, a.nr_lt⟩ (shiftRows (subBytes s))

def decryptState (a : AES) (s : State) : State :=
  let s := addRoundKey a.mRoundKeys ⟨a.nr, a.nr_lt⟩ s
  let s := decryptRounds a.mRoundKeys (a.nr - 1) a.nr_pred_lt s
  addRoundKey a.mRoundKeys 0 (invSubBytes (invShiftRows s))

def encryptBlock (a : AES) (plaintext : Bytes) : Except String Bytes :=
  if plaintext.length ≠ 16 then .error "Block size error"
  else .ok (storeState (a.encryptState (loadState plaintext)))

def decryptBlock (a : AES) (ciphertext : Bytes) : Except String Bytes :=
  if ciphertext.length ≠ 16 then .error "Block size error"
  else .ok (storeState (a.decryptState (loadState ciphertext)))

end AES

end CryptoChat.Crypto.Aes
