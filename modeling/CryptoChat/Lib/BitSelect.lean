/-
  CryptoChat.Lib.BitSelect — bit selection by table, with bits numbered from 1 at the
  left: bit `i` of `select m table x` is bit `table[i]` of `x`. Two selections by one
  table agree exactly when the inputs agree on the bits it names (`select_eq_iff`),
  and selecting twice selects once, by the composed table (`select_select`), so two
  tables whose composition counts `1, 2, .., n` undo each other (`select_inverse`).
-/

import Mathlib

namespace CryptoChat.Lib.BitSelect

variable {n n' m k : Nat}

def select (m : Nat) (table : List Nat) (x : BitVec n) : BitVec m :=
  (BitVec.ofBoolListBE (table.map fun t => x.getMsbD (t - 1))).setWidth m

theorem getMsbD_select {table : List Nat} (hl : table.length = m) (x : BitVec n) (i : Nat) :
    (select m table x).getMsbD i = (table[i]?.map fun t => x.getMsbD (t - 1)).getD false := by
  have h : i + (table.map fun t => x.getMsbD (t - 1)).length - m = i := by simp [hl]
  rw [select, BitVec.getMsbD_setWidth, h, BitVec.getMsbD_ofBoolListBE]
  simp [hl, List.getD_eq_getElem?_getD]

theorem eq_of_getMsbD {x y : BitVec n} (h : ∀ i < n, x.getMsbD i = y.getMsbD i) : x = y :=
  BitVec.eq_of_getMsbD_eq h

theorem select_eq_iff {table : List Nat} (hl : table.length = m) {x : BitVec n} {y : BitVec n'} :
    select m table x = select m table y ↔ ∀ t ∈ table, x.getMsbD (t - 1) = y.getMsbD (t - 1) := by
  constructor
  · intro h t ht
    obtain ⟨i, hi⟩ := List.getElem?_of_mem ht
    have := congrArg (BitVec.getMsbD · i) h
    simpa [getMsbD_select hl, hi] using this
  · intro h
    unfold select
    rw [List.map_congr_left h]

theorem select_select {a b : List Nat} (ha : a.length = m) (hb : ∀ t ∈ b, 1 ≤ t ∧ t ≤ m) (x : BitVec n) :
    select k b (select m a x) = select k (b.map fun t => a.getD (t - 1) 0) x := by
  have hm : b.map (fun t => (select m a x).getMsbD (t - 1)) =
      (b.map fun t => a.getD (t - 1) 0).map fun t => x.getMsbD (t - 1) := by
    rw [List.map_map]
    apply List.map_congr_left
    intro t ht
    obtain ⟨h1, h2⟩ := hb t ht
    have hi : t - 1 < a.length := by omega
    simp [getMsbD_select ha, hi]
  conv_lhs => rw [select]
  rw [hm]; rfl

theorem select_range' (x : BitVec n) : select n (List.range' 1 n) x = x := by
  apply eq_of_getMsbD
  intro i hi
  rw [getMsbD_select (by simp), List.getElem?_range' hi]
  simp

/-- Tables whose composition counts through the bits undo each other. -/
theorem select_inverse {a b : List Nat} (ha : a.length = n) (hb : ∀ t ∈ b, 1 ≤ t ∧ t ≤ n)
    (h : (b.map fun t => a.getD (t - 1) 0) = List.range' 1 n) (x : BitVec n) :
    select n b (select n a x) = x := by
  rw [select_select ha hb, h, select_range']

end CryptoChat.Lib.BitSelect
