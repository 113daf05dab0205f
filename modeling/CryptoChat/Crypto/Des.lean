/-
  CryptoChat.Crypto.Des — the DES block cipher of `modern/symmetric/block/DES.cpp`:
  the tables, the bit permutation helper, the key expansion into 16 subkeys and the
  block encryptor and decryptor.

  `permute` numbers the bits of its input from 1 at the left of a 64-bit word,
  whatever the width of the value that word holds; each caller aligns its value, or
  does not.
-/

import CryptoChat.Lib.Bytes

namespace CryptoChat.Crypto.Des

open CryptoChat.Lib

/-! ## Tables -/

def ip : List Nat :=
  [58, 50, 42, 34, 26, 18, 10, 2, 60, 52, 44, 36, 28, 20, 12, 4,
    62, 54, 46, 38, 30, 22, 14, 6, 64, 56, 48, 40, 32, 24, 16, 8,
    57, 49, 41, 33, 25, 17, 9, 1, 59, 51, 43, 35, 27, 19, 11, 3,
    61, 53, 45, 37, 29, 21, 13, 5, 63, 55, 47, 39, 31, 23, 15, 7]

def fp : List Nat :=
  [40, 8, 48, 16, 56, 24, 64, 32, 39, 7, 47, 15, 55, 23, 63, 31,
    38, 6, 46, 14, 54, 22, 62, 30, 37, 5, 45, 13, 53, 21, 61, 29,
    36, 4, 44, 12, 52, 20, 60, 28, 35, 3, 43, 11, 51, 19, 59, 27,
    34, 2, 42, 10, 50, 18, 58, 26, 33, 1, 41, 9, 49, 17, 57, 25]

def e : List Nat :=
  [32, 1, 2, 3, 4, 5, 4, 5, 6, 7, 8, 9, 8, 9, 10, 11,
    12, 13, 12, 13, 14, 15, 16, 17, 16, 17, 18, 19, 20, 21, 20, 21,
    22, 23, 24, 25, 24, 25, 26, 27, 28, 29, 28, 29, 30, 31, 32, 1]

def p : List Nat :=
  [16, 7, 20, 21, 29, 12, 28, 17, 1, 15, 23, 26, 5, 18, 31, 10,
    2, 8, 24, 14, 32, 27, 3, 9, 19, 13, 30, 6, 22, 11, 4, 25]

def pc1 : List Nat :=
  [57, 49, 41, 33, 25, 17, 9, 1, 58, 50, 42, 34, 26, 18,
    10, 2, 59, 51, 43, 35, 27, 19, 11, 3, 60, 52, 44, 36,
    63, 55, 47, 39, 31, 23, 15, 7, 62, 54, 46, 38, 30, 22,
    14, 6, 61, 53, 45, 37, 29, 21, 13, 5, 28, 20, 12, 4]

def pc2 : List Nat :=
  [14, 17, 11, 24, 1, 5, 3, 28, 15, 6, 21, 10,
    23, 19, 12, 4, 26, 8, 16, 7, 27, 20, 13, 2,
    41, 52, 31, 37, 47, 55, 30, 40, 51, 45, 33, 48,
    44, 49, 39, 56, 34, 53, 46, 42, 50, 36, 29, 32]

def shifts : List Nat :=
  [1, 1, 2, 2, 2, 2, 2, 2, 1, 2, 2, 2, 2, 2, 2, 1]

def s : List (List Nat) :=
  [[14, 4, 13, 1, 2, 15, 11, 8, 3, 10, 6, 12, 5, 9, 0, 7,
      0, 15, 7, 4, 14, 2, 13, 1, 10, 6, 12, 11, 9, 5, 3, 8,
      4, 1, 14, 8, 13, 6, 2, 11, 15, 12, 9, 7, 3, 10, 5, 0,
      15, 12, 8, 2, 4, 9, 1, 7, 5, 11, 3, 14, 10, 0, 6, 13],
    [15, 1, 8, 14, 6, 11, 3, 4, 9, 7, 2, 13, 12, 0, 5, 10,
      3, 13, 4, 7, 15, 2, 8, 14, 12, 0, 1, 10, 6, 9, 11, 5,
      0, 14, 7, 11, 10, 4, 13, 1, 5, 8, 12, 6, 9, 3, 2, 15,
      13, 8, 10, 1, 3, 15, 4, 2, 11, 6, 7, 12, 0, 5, 14, 9],
    [10, 0, 9, 14, 6, 3, 15, 5, 1, 13, 12, 7, 11, 4, 2, 8,
      13, 7, 0, 9, 3, 4, 6, 10, 2, 8, 5, 14, 12, 11, 15, 1,
      13, 6, 4, 9, 8, 15, 3, 0, 11, 1, 2, 12, 5, 10, 14, 7,
      1, 10, 13, 0, 6, 9, 8, 7, 4, 15, 14, 3, 11, 5, 2, 12],
    [7, 13, 14, 3, 0, 6, 9, 10, 1, 2, 8, 5, 11, 12, 4, 15,
      13, 8, 11, 5, 6, 15, 0, 3, 4, 7, 2, 12, 1, 10, 14, 9,
      10, 6, 9, 0, 12, 11, 7, 13, 15, 1, 3, 14, 5, 2, 8, 4,
      3, 15, 0, 6, 10, 1, 13, 8, 9, 4, 5, 11, 12, 7, 2, 14],
    [2, 12, 4, 1, 7, 10, 11, 6, 8, 5, 3, 15, 13, 0, 14, 9,
      14, 11, 2, 12, 4, 7, 13, 1, 5, 0, 15, 10, 3, 9, 8, 6,
      4, 2, 1, 11, 10, 13, 7, 8, 15, 9, 12, 5, 6, 3, 0, 14,
      11, 8, 12, 7, 1, 14, 2, 13, 6, 15, 0, 9, 10, 4, 5, 3],
    [12, 1, 10, 15, 9, 2, 6, 8, 0, 13, 3, 4, 14, 7, 5, 11,
      10, 15, 4, 2, 7, 12, 9, 5, 6, 1, 13, 14, 0, 11, 3, 8,
      9, 14, 15, 5, 2, 8, 12, 3, 7, 0, 4, 10, 1, 13, 11, 6,
      4, 3, 2, 12, 9, 5, 15, 10, 11, 14, 1, 7, 6, 0, 8, 13],
    [4, 11, 2, 14, 15, 0, 8, 13, 3, 12, 9, 7, 5, 10, 6, 1,
      13, 0, 11, 7, 4, 9, 1, 10, 14, 3, 5, 12, 2, 15, 8, 6,
      1, 4, 11, 13, 12, 3, 7, 14, 10, 15, 6, 8, 0, 5, 9, 2,
      6, 11, 13, 8, 1, 4, 10, 7, 9, 5, 0, 15, 14, 2, 3, 12],
    [13, 2, 8, 4, 6, 15, 11, 1, 10, 9, 3, 14, 5, 0, 12, 7,
      1, 15, 13, 8, 10, 3, 7, 4, 12, 5, 6, 11, 0, 14, 9, 2,
      7, 11, 4, 1, 9, 12, 14, 2, 0, 6, 10, 13, 15, 3, 5, 8,
      2, 1, 14, 7, 4, 10, 8, 13, 15, 12, 9, 0, 3, 5, 6, 11]]

/-! ## Permutation and key expansion -/

/-- One iteration of `permute`, for the table entry `t`. -/
def permuteStep (input result : BitVec 64) (t : Nat) : BitVec 64 :=
  (result <<< 1) ||| ((input >>> (64 - t)) &&& 1#64)

def permute (input : BitVec 64) (table : List Nat) (n : Nat) : BitVec 64 :=
  (table.take n).foldl (permuteStep input) 0#64

/-- `std::array<uint64_t, 16>`. -/
structure DES where
  mSubkeys : Vector (BitVec 64) 16

namespace DES

/-- The constructor. -/
def new : DES := ⟨Vector.replicate 16 0#64⟩

end DES

/-- A left rotation of the low 28 bits of a 32-bit word. -/
def rotate28 (x : BitVec 32) (shift : Nat) : BitVec 32 :=
  ((x <<< shift) ||| (x >>> (28 - shift))) &&& 0x0fffffff#32

/-- `C` and `D` after the first `n` rounds of `keyExpansion`. -/
def halves (key : BitVec 64) : Nat → BitVec 32 × BitVec 32
  | 0 =>
    let permuted := permute key pc1 56
    (((permuted >>> 28) &&& 0x0fffffff#64).setWidth 32, (permuted &&& 0x0fffffff#64).setWidth 32)
  | n + 1 =>
    let (c, d) := halves key n
    (rotate28 c (shifts.getD n 0), rotate28 d (shifts.getD n 0))

/-- The subkey stored in round `round`, counted from 0. -/
def subkey (key : BitVec 64) (round : Nat) : BitVec 64 :=
  let (c, d) := halves key (round + 1)
  permute ((c.setWidth 64 <<< 28) ||| d.setWidth 64) pc2 48

def keyExpansion (key : BitVec 64) : DES := ⟨Vector.ofFn fun round => subkey key round⟩

namespace DES

/-- What `setKey` does to the object, and whether it throws. -/
def setKey (d : DES) (key : Bytes) : Except String Unit × DES :=
  if key.length ≠ 8 then (.error "DES key must be 8 bytes (64 bits)", d)
  else (.ok (), keyExpansion (ofBytes 64 key))

end DES

/-! ## Rounds -/

/-- Entry `row * 16 + col` of S-box `i`, from a 6-bit chunk. -/
def sValue (i : Nat) (chunk : Byte) : Byte :=
  let row := ((chunk &&& 0x20#8) >>> 4) ||| (chunk &&& 0x01#8)
  let col := (chunk &&& 0x1e#8) >>> 1
  BitVec.ofNat 8 ((s.getD i []).getD (row.toNat * 16 + col.toNat) 0)

def feistel (r : BitVec 32) (subkey : BitVec 64) : BitVec 32 :=
  let expanded := permute (r.setWidth 64 <<< 32) e 48 ^^^ subkey
  let output := (List.range 8).foldl (fun (output : BitVec 32) i =>
    (output <<< 4) ||| (sValue i ((expanded >>> (42 - i * 6) &&& 0x3f#64).setWidth 8)).setWidth 32) 0#32
  (permute (output.setWidth 64 <<< 32) p 32).setWidth 32

/-- The halves of a block after the initial permutation. -/
def split (block : BitVec 64) : BitVec 32 × BitVec 32 :=
  let block := permute block ip 64
  ((block >>> 32).setWidth 32, (block &&& 0xffffffff#64).setWidth 32)

/-- The final permutation of `R` followed by `L`. -/
def join (lr : BitVec 32 × BitVec 32) : BitVec 64 :=
  permute ((lr.2.setWidth 64 <<< 32) ||| lr.1.setWidth 64) fp 64

namespace DES

/-- One iteration of the round loops, which differ in the order of `round` only. -/
def round (d : DES) (lr : BitVec 32 × BitVec 32) (round : Fin 16) : BitVec 32 × BitVec 32 :=
  (lr.2, lr.1 ^^^ feistel lr.2 d.mSubkeys[round])

def encryptBlock (d : DES) (plaintext : Bytes) : Except String Bytes :=
  if plaintext.length ≠ 8 then .error "DES block must be 8 bytes"
  else .ok (toBytes 8 (join ((List.finRange 16).foldl d.round (split (ofBytes 64 plaintext)))))

def decryptBlock (d : DES) (ciphertext : Bytes) : Except String Bytes :=
  if ciphertext.length ≠ 8 then .error "DES block must be 8 bytes"
  else .ok (toBytes 8 (join ((List.finRange 16).reverse.foldl d.round (split (ofBytes 64 ciphertext)))))

end DES

end CryptoChat.Crypto.Des
