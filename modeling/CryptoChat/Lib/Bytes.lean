/-
  CryptoChat.Lib.Bytes — byte strings and the machine words packed into them, most
  significant byte first.

  Proved: the bits of a packed word (`getLsbD_ofBytes`) and of an unpacked byte
  (`getLsbD_toBytes`); unpacking undoes packing (`toBytes_ofBytes`) and packing
  undoes unpacking (`ofBytes_toBytes`).
-/

import Mathlib

namespace CryptoChat.Lib

abbrev Byte := BitVec 8

abbrev Bytes := List Byte

variable {w : Nat}

/-- A word from its bytes, the first one most significant. -/
def ofBytes (w : Nat) (l : Bytes) : BitVec w := l.foldl (fun acc b => (acc <<< 8) ||| b.setWidth w) 0#w

/-- The low `n` bytes of a word, most significant first. -/
def toBytes (n : Nat) (x : BitVec w) : Bytes := (List.range n).map fun k => (x >>> (8 * (n - 1 - k))).setWidth 8

@[simp] theorem ofBytes_nil : ofBytes w [] = 0#w := rfl

theorem ofBytes_snoc (l : Bytes) (b : Byte) : ofBytes w (l ++ [b]) = (ofBytes w l <<< 8) ||| b.setWidth w := by
  simp [ofBytes]

@[simp] theorem length_toBytes (n : Nat) (x : BitVec w) : (toBytes n x).length = n := by simp [toBytes]

theorem getLsbD_ofBytes (l : Bytes) (i : Nat) :
    (ofBytes w l).getLsbD i = (decide (i < w) && (l.reverse.getD (i / 8) 0#8).getLsbD (i % 8)) := by
  induction l using List.reverseRecOn generalizing i with
  | nil => simp
  | append_singleton l b ih =>
    rw [ofBytes_snoc, List.reverse_append]
    by_cases hi : i < 8
    · simp [hi, Nat.div_eq_of_lt hi, Nat.mod_eq_of_lt hi]
    · have hd : i / 8 = (i - 8) / 8 + 1 := by omega
      have hm : i % 8 = (i - 8) % 8 := by omega
      simp only [BitVec.getLsbD_or, BitVec.getLsbD_shiftLeft, ih, BitVec.getLsbD_setWidth,
        BitVec.getLsbD_of_ge b i (by omega), hd, hm]
      by_cases hw : i < w
      · simp [hw, hi, show i - 8 < w by omega]
      · simp [hw]

theorem getD_toBytes (n : Nat) (x : BitVec w) {k : Nat} (hk : k < n) :
    (toBytes n x).getD k 0#8 = (x >>> (8 * (n - 1 - k))).setWidth 8 := by
  simp [toBytes, hk]

theorem ofBytes_toBytes {n : Nat} (hn : w ≤ 8 * n) (x : BitVec w) : ofBytes w (toBytes n x) = x := by
  apply BitVec.eq_of_getLsbD_eq
  intro i hi
  have hk : i / 8 < n := by omega
  have hr : (toBytes n x).reverse.getD (i / 8) 0#8 = (toBytes n x).getD (n - 1 - i / 8) 0#8 := by
    simp only [List.getD_eq_getElem?_getD]
    rw [List.getElem?_reverse (by simpa using hk), length_toBytes]
  rw [getLsbD_ofBytes, hr, getD_toBytes n x (by omega)]
  have h8 : i % 8 < 8 := Nat.mod_lt _ (by omega)
  have he : 8 * (n - 1 - (n - 1 - i / 8)) + i % 8 = i := by omega
  simp [hi, h8, he]

theorem toBytes_ofBytes {n : Nat} (hn : 8 * n ≤ w) {l : Bytes} (hl : l.length = n) : toBytes n (ofBytes w l) = l := by
  apply List.ext_getElem (by simp [hl])
  intro k hk1 hk2
  have hk : k < n := by omega
  have hg : (toBytes n (ofBytes w l))[k] = (ofBytes w l >>> (8 * (n - 1 - k))).setWidth 8 := by simp [toBytes]
  rw [hg]
  apply BitVec.eq_of_getLsbD_eq
  intro j hj
  have hd : (8 * (n - 1 - k) + j) / 8 = n - 1 - k := by omega
  have hm : (8 * (n - 1 - k) + j) % 8 = j := by omega
  have hr : l.reverse.getD (n - 1 - k) 0#8 = l[k] := by
    have he : l.length - 1 - (n - 1 - k) = k := by omega
    simp only [List.getD_eq_getElem?_getD, List.getElem?_reverse (show n - 1 - k < l.length by omega), he]
    simp [hk2]
  simp only [BitVec.getLsbD_setWidth, BitVec.getLsbD_ushiftRight, getLsbD_ofBytes, hd, hm, hr]
  simp [hj, show 8 * (n - 1 - k) + j < w by omega]

end CryptoChat.Lib
