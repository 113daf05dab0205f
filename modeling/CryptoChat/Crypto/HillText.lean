/-
  CryptoChat.Crypto.HillText — Hill encryption and decryption of texts over `A` to `Z`.

  `multiply_undo`: where two matrices are inverse modulo 26, one block multiplication
  undoes the other. `hill_decrypts` lifts it to texts of any length, in both directions;
  a last block that is short counts as filled up with `A`, whose value is 0.
-/

import CryptoChat.Crypto.HillInverse

namespace CryptoChat.Crypto.Classic.Hill

open CryptoChat.Lib Ctype CheckedInt

variable {n : Nat}

/-! ## Blocks -/

/-- The values of a block of letters are residues. -/
def Letters (block : Bytes) : Prop := ∀ ch ∈ block, isupper ch = true

theorem blockValue_bounds {block : Bytes} (h : Letters block) (j : Nat) :
    0 ≤ blockValue block j ∧ blockValue block j ≤ 25 := by
  have hall : ∀ ch : Byte, isupper ch = true → 0 ≤ ch.toInt - 65 ∧ ch.toInt - 65 ≤ 25 := by decide
  unfold blockValue
  split
  · rename_i hj
    rw [List.getD_eq_getElem?_getD, List.getElem?_eq_getElem hj]
    exact hall _ (h _ (List.getElem_mem hj))
  · omega

/-- The letter of a value. -/
def letterOf (x : Int) : Byte := BitVec.ofInt 8 (x + 65)

theorem letterOf_spec {x : Int} (h : 0 ≤ x ∧ x ≤ 25) : isupper (letterOf x) = true ∧ (letterOf x).toInt - 65 = x := by
  have hall : ∀ r : Fin 26, isupper (letterOf r.val) = true ∧ (letterOf r.val).toInt - 65 = r.val := by decide
  have hcast : ((x.toNat : Nat) : Int) = x := Int.toNat_of_nonneg h.1
  have hx := hall ⟨x.toNat, by omega⟩
  rwa [hcast] at hx

theorem letterOf_value {ch : Byte} (h : isupper ch = true) : letterOf (ch.toInt - 65) = ch := by
  have hall : ∀ ch : Byte, isupper ch = true → letterOf (ch.toInt - 65) = ch := by decide
  exact hall ch h

/-- A row times a block, over the integers. -/
def rowSum (matrix : Grid n) (block : Bytes) (row : Fin n) : Int :=
  ∑ col : Fin n, entry matrix row col * blockValue block col

theorem rowValue_ok {matrix : Grid n} (hm : InRange matrix) (hmax : n ≤ 46340) {block : Bytes} (hb : Letters block)
    (row : Fin n) : rowValue matrix block row = .ok (rowSum matrix block row) := by
  have hterm : ∀ col ∈ List.finRange n,
      mul (entry matrix row col) (blockValue block col) =
          (.ok (entry matrix row col * blockValue block col) : Except Fault Int) ∧
        0 ≤ entry matrix row col * blockValue block col ∧ entry matrix row col * blockValue block col ≤ 625 := by
    intro col _
    obtain ⟨hlow, hhigh⟩ := mul_bounds (hm row col) (blockValue_bounds hb col)
    exact ⟨mul_ok ⟨by omega, by omega⟩, hlow, hhigh⟩
  have hlen : ((List.finRange n).length : Int) = n := by rw [List.length_finRange]
  have hsum := foldlM_sum hterm (Int.le_refl 0) (by omega)
  rw [zero_add, ← Fin.sum_univ_def] at hsum
  exact hsum

theorem rowChar_ok {matrix : Grid n} (hm : InRange matrix) (hmax : n ≤ 46340) {block : Bytes} (hb : Letters block)
    (row : Fin n) : rowChar matrix block row = .ok (letterOf (rowSum matrix block row % 26)) := by
  rw [rowChar, rowValue_ok hm hmax hb]
  simp only [Bind.bind, Except.bind, mod26_ok]
  rfl

theorem multiply_ok {matrix : Grid n} (hm : InRange matrix) (hmax : n ≤ 46340) {block : Bytes} (hb : Letters block) :
    multiply matrix block = .ok ((List.finRange n).map fun row => letterOf (rowSum matrix block row % 26)) := by
  rw [multiply, funext (rowChar_ok hm hmax hb)]
  exact List.mapM_pure

theorem letters_map (x : Fin n → Int) : Letters ((List.finRange n).map fun row => letterOf (x row % 26)) := by
  intro ch hch
  obtain ⟨row, -, rfl⟩ := List.mem_map.mp hch
  exact (letterOf_spec (emod_bounds _)).1

theorem blockValue_map (x : Fin n → Int) (j : Fin n) :
    blockValue ((List.finRange n).map fun row => letterOf (x row % 26)) j = x j % 26 := by
  have hlt : j.val < ((List.finRange n).map fun row => letterOf (x row % 26)).length := by
    rw [List.length_map, List.length_finRange]
    exact j.isLt
  rw [blockValue, if_pos hlt, List.getD_eq_getElem?_getD, List.getElem?_eq_getElem hlt, List.getElem_map,
    List.getElem_finRange]
  exact (letterOf_spec (emod_bounds _)).2

/-- A block as a vector modulo 26. -/
def vector (n : Nat) (block : Bytes) : Fin n → ZMod 26 := fun j => (blockValue block j : ZMod 26)

theorem cast_rowSum (matrix : Grid n) (block : Bytes) (row : Fin n) :
    (rowSum matrix block row : ZMod 26) = (residues matrix).mulVec (vector n block) row := by
  rw [rowSum, Int.cast_sum]
  refine Finset.sum_congr rfl ?_
  intro col _
  exact Int.cast_mul _ _

/-- Inverse matrices undo each other on a block of letters. -/
theorem multiply_undo {a b : Grid n} (ha : InRange a) (hb : InRange b) (hmax : n ≤ 46340)
    (hinv : residues b * residues a = 1) (block : Bytes) (hlen : block.length = n) (hletters : Letters block) :
    ∃ out, multiply a block = pure out ∧ out.length = n ∧ multiply b out = pure block := by
  refine ⟨(List.finRange n).map fun row => letterOf (rowSum a block row % 26), multiply_ok ha hmax hletters, ?_, ?_⟩
  · rw [List.length_map, List.length_finRange]
  · rw [multiply_ok hb hmax (letters_map _)]
    refine congrArg Except.ok (List.ext_getElem ?_ ?_)
    · rw [List.length_map, List.length_finRange, hlen]
    · intro i hi hi'
      have hin : i < n := hlen ▸ hi'
      have hvector : vector n ((List.finRange n).map fun row => letterOf (rowSum a block row % 26)) =
          (residues a).mulVec (vector n block) := by
        funext j
        rw [← cast_rowSum, vector, blockValue_map]
        exact ZMod.intCast_mod _ 26
      have hcast : (rowSum b ((List.finRange n).map fun row => letterOf (rowSum a block row % 26)) ⟨i, hin⟩ : ZMod 26) =
          (blockValue block i : ZMod 26) := by
        rw [cast_rowSum, hvector, Matrix.mulVec_mulVec, hinv, Matrix.one_mulVec]
        rfl
      have hmod : rowSum b ((List.finRange n).map fun row => letterOf (rowSum a block row % 26)) ⟨i, hin⟩ % 26 =
          blockValue block i := by
        rw [← emod_of_bounds (blockValue_bounds hletters i)]
        exact (ZMod.intCast_eq_intCast_iff' _ _ 26).mp hcast
      rw [List.getElem_map, List.getElem_finRange]
      have hchar : letterOf (blockValue block i) = block[i] := by
        rw [blockValue, if_pos hi', List.getD_eq_getElem?_getD, List.getElem?_eq_getElem hi']
        exact letterOf_value (hletters _ (List.getElem_mem hi'))
      rw [← hchar, ← hmod]
      rfl

/-- What is missing from a block has the value of `A`. -/
theorem multiply_fill (matrix : Grid n) (block : Bytes) (hlen : block.length ≤ n) :
    multiply matrix block = multiply matrix (block ++ List.replicate (n - block.length) (chr 'A')) := by
  have hvalue (j : Fin n) :
      blockValue block j = blockValue (block ++ List.replicate (n - block.length) (chr 'A')) j := by
    have hj : j.val < (block ++ List.replicate (n - block.length) (chr 'A')).length := by
      rw [List.length_append, List.length_replicate]
      omega
    rw [blockValue, blockValue, if_pos hj]
    split
    · rename_i hlt
      rw [List.getD_append _ _ _ _ hlt]
    · rename_i hge
      rw [List.getD_append_right _ _ _ _ (Nat.le_of_not_lt hge), List.getD_eq_getElem?_getD, List.getElem?_replicate,
        if_pos (by omega)]
      rfl
  have hrow : rowChar matrix block = rowChar matrix (block ++ List.replicate (n - block.length) (chr 'A')) := by
    funext row
    simp only [rowChar, rowValue, hvalue]
  rw [multiply, multiply, hrow]

/-! ## Texts -/

/-- What the constructor accepts has inverse matrices. -/
theorem of_new {key : Bytes} (h2 : 2 ≤ n) (hmax : n ≤ 46340) (hlen : n * n ≤ key.length)
    (hkey : ∀ ch ∈ key, isalpha ch = true) {hill : Hill n} (hnew : new key n = .ok hill) :
    InRange hill.m_keyMatrix ∧ InRange hill.m_inverseKeyMatrix ∧
      residues hill.m_inverseKeyMatrix * residues hill.m_keyMatrix = 1 := by
  obtain ⟨k, rfl⟩ := Nat.exists_eq_add_of_le' h2
  have hrange := inRange_keyGrid hlen hkey
  rw [new_eq hmax hlen] at hnew
  by_cases hgcd : Int.gcd (toMatrix (keyGrid key (k + 2))).det 26 = 1
  · obtain ⟨made, hok, hgrid, hinverse, hone⟩ := ofKeyGrid_ok hrange hgcd
    rw [hok] at hnew
    cases hnew
    exact ⟨hgrid ▸ hrange, hinverse, hgrid ▸ hone⟩
  · rw [ofKeyGrid_fails hrange hgcd] at hnew
    cases hnew

/-- The fewest elements that complete a length to a multiple of `n`. -/
theorem exists_fewest (hn : 0 < n) (len : Nat) :
    ∃ pad, pad < n ∧ n ∣ len + pad ∧ ∀ more, n ∣ len + more → pad ≤ more := by
  have hdiv := Nat.div_add_mod len n
  have hlt := Nat.mod_lt len hn
  rcases Nat.eq_zero_or_pos (len % n) with hzero | hpos
  · exact ⟨0, hn, Nat.dvd_of_mod_eq_zero hzero, fun more _ => Nat.zero_le more⟩
  · refine ⟨n - len % n, by omega, ⟨len / n + 1, ?_⟩, ?_⟩
    · rw [Nat.mul_succ]
      omega
    · intro more hmore
      have hrest : n ∣ len % n + more := by
        rw [← hdiv, Nat.add_assoc] at hmore
        exact (Nat.dvd_add_right (Nat.dvd_mul_right n _)).mp hmore
      have hle := Nat.le_of_dvd (by omega) hrest
      omega

/-- For every key that is accepted: a text decrypts to itself, filled up with `A`, and a
    ciphertext of whole blocks encrypts to itself again. -/
theorem hill_decrypts {n : Nat} (h2 : 2 ≤ n) (hmax : n ≤ 46340) {key : Bytes} (hlen : n * n ≤ key.length)
    (hkey : ∀ ch ∈ key, isalpha ch = true) {hill : Hill n} (hnew : new key n = .ok hill) :
    (∀ t, Letters t → ∃ c pad, encrypt hill t = .ok c ∧
      decrypt hill c = .ok (t ++ List.replicate pad (chr 'A')) ∧
        n ∣ (t ++ List.replicate pad (chr 'A')).length ∧ ∀ more, n ∣ t.length + more → pad ≤ more) ∧
      ∀ c, Letters c → n ∣ c.length → ∃ t, decrypt hill c = .ok t ∧ encrypt hill t = .ok c := by
  have hn : 0 < n := Nat.lt_of_lt_of_le (by decide) h2
  obtain ⟨hk, hi, hone⟩ := of_new h2 hmax hlen hkey hnew
  refine ⟨?_, ?_⟩
  · intro t ht
    obtain ⟨pad, hpad, ⟨k, hwhole⟩, hfewest⟩ := exists_fewest hn t.length
    have hwhole' : (t ++ List.replicate pad (chr 'A')).length = 0 + n * k := by
      rw [List.length_append, List.length_replicate, hwhole, Nat.zero_add]
    have hletters : Letters (t ++ List.replicate pad (chr 'A')) := by
      intro ch hch
      rcases List.mem_append.mp hch with hch | hch
      · exact ht ch hch
      · exact (List.eq_of_mem_replicate hch) ▸ rfl
    have hfill : encrypt hill t = BlockLoop.loop (multiply hill.m_keyMatrix) n (t ++ List.replicate pad (chr 'A')) 0 [] :=
      BlockLoop.loop_fill hn (multiply_fill hill.m_keyMatrix) hpad k 0 (by omega) []
    obtain ⟨c, henc, hdec⟩ := BlockLoop.loop_undo hn (multiply_undo hk hi hmax hone) hletters k 0 hwhole' []
    exact ⟨c, pad, hfill.trans henc, hdec [] [], ⟨k, by omega⟩, hfewest⟩
  · rintro c hc ⟨k, hwhole⟩
    obtain ⟨t, hdec, henc⟩ := BlockLoop.loop_undo hn (multiply_undo hi hk hmax (mul_eq_one_comm.mp hone)) hc k 0
      (by omega) []
    exact ⟨t, hdec, henc [] []⟩

/-- The key `DDCF` of the tests, of determinant 9. -/
theorem hill_decrypts_ddcf : ∃ hill : Hill 2, new (ascii "DDCF".toList) 2 = .ok hill ∧
    (∀ t, Letters t → ∃ c pad, encrypt hill t = .ok c ∧
      decrypt hill c = .ok (t ++ List.replicate pad (chr 'A')) ∧
        2 ∣ (t ++ List.replicate pad (chr 'A')).length ∧ ∀ more, 2 ∣ t.length + more → pad ≤ more) ∧
      ∀ c, Letters c → 2 ∣ c.length → ∃ t, decrypt hill c = .ok t ∧ encrypt hill t = .ok c := by
  have hgcd : Int.gcd (keyMatrix (ascii "DDCF".toList) 2).det 26 = 1 := by
    rw [Matrix.det_fin_two]
    decide
  obtain ⟨hill, hok, -, -⟩ := (meets_from_two (by decide) (by decide) (by decide)).accepts hgcd
  exact ⟨hill, hok, hill_decrypts (by decide) (by decide) (by decide) (by decide) hok⟩

end CryptoChat.Crypto.Classic.Hill
