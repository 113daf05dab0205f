/-
  CryptoChat.Crypto.Hill — the Hill cipher of `classic/Hill.cpp`.

  An `int` is checked: an operation that leaves its range is the fault `overflow`, which
  the code does not catch. A `char` is signed.

  `determinant_ok`: on entries from 0 to 25 the recursion stays in range and gives the
  determinant modulo 26, for every size but 0, where it gives 0.
-/

import CryptoChat.Lib.BlockLoop
import CryptoChat.Crypto.Classic

namespace CryptoChat.Crypto.Classic

open CryptoChat.Lib Ctype CheckedInt

/-! ## The code -/

/-- `std::vector<std::vector<int>>` of `n` rows and columns. -/
abbrev Grid (n : Nat) := Vector (Vector Int n) n

def entry {n : Nat} (matrix : Grid n) (i j : Fin n) : Int := matrix[i][j]

/-- An object of matrix size `n`. -/
structure Hill (n : Nat) where
  m_keyMatrix : Grid n
  m_inverseKeyMatrix : Grid n

namespace Hill

variable {n : Nat}

def mod26 (x : Int) : Except Fault Int := do
  let x ← add (x.tmod 26) 26
  return x.tmod 26

/-- `p % 2 == 0 ? 1 : -1`. -/
def sign (p : Nat) : Int := if p % 2 = 0 then 1 else -1

/-- `subMatrix`: all rows but `i` and all columns but `j`. -/
def subMatrix (matrix : Grid (n + 1)) (i j : Fin (n + 1)) : Grid n :=
  .ofFn fun row => .ofFn fun col => entry matrix (i.succAbove row) (j.succAbove col)

/-- `det += (p % 2 == 0 ? 1 : -1) * matrix[0][p] * determinant(subMatrix); det = mod26(det);` -/
def addTerm (p : Nat) (x minor det : Int) : Except Fault Int := do
  let term ← mul (← mul (sign p) x) minor
  mod26 (← add det term)

def determinant : {n : Nat} → Grid n → Except Fault Int
  | 0, _ => mod26 0
  | 1, matrix => pure (entry matrix 0 0)
  | 2, matrix => do
    let ad ← mul (entry matrix 0 0) (entry matrix 1 1)
    let bc ← mul (entry matrix 0 1) (entry matrix 1 0)
    mod26 (← sub ad bc)
  | n + 3, matrix => do
    let det ← (List.finRange (n + 3)).foldlM (fun det p => do
      let minor ← determinant (subMatrix matrix 0 p)
      addTerm p.val (entry matrix 0 p) minor det) 0
    mod26 det

/-- Entry `(j, i)` of the adjugate. -/
def cofactor : {n : Nat} → Grid n → Fin n → Fin n → Except Fault Int
  | _ + 1, matrix, i, j => do mod26 (← mul (sign (i + j)) (← determinant (subMatrix matrix i j)))

def adjugate (matrix : Grid n) : Except Fault (Grid n) := do
  let cofactors ← Vector.ofFnM fun i => Vector.ofFnM fun j => cofactor matrix i j
  return .ofFn fun j => .ofFn fun i => entry cofactors i j

/-- The search of `modInverse` over the candidates left. -/
def findInverse (a m : Int) : List Nat → Except Fault Int
  | [] => throw (.runtimeError "Modular inverse does not exist.")
  | x :: left => do if (← mul a x).tmod m = 1 then return x else findInverse a m left

def modInverse (a : Int) (m : Nat) : Except Fault Int := findInverse (a.tmod m) m (List.range' 1 (m - 1))

/-- `std::toupper(ch) - 'A'`. -/
def letterValue (ch : Byte) : Int := (toupper ch).toInt - 65

def keyEntry (keyMatrixStr : Bytes) (matrixSize i j : Nat) : Except Fault Int := do
  let place ← add (← mul i matrixSize) j
  return letterValue (keyMatrixStr.getD place.toNat 0#8)

/-- The constructor. -/
def new (keyMatrixStr : Bytes) (matrixSize : Nat) : Except Fault (Hill matrixSize) := do
  let size ← mul matrixSize matrixSize
  if (keyMatrixStr.length : Int) < size then
    throw (.invalidArgument "Hill: key string too short for matrix size.")
  let m_keyMatrix ← Vector.ofFnM fun i => Vector.ofFnM fun j => keyEntry keyMatrixStr matrixSize i j
  let det ← determinant m_keyMatrix
  let detInv ← modInverse det 26
  let adj ← adjugate m_keyMatrix
  let m_inverseKeyMatrix ← Vector.ofFnM fun i => Vector.ofFnM fun j => do mod26 (← mul (entry adj i j) detInv)
  return ⟨m_keyMatrix, m_inverseKeyMatrix⟩

/-- `block[j]`: a place after the end of the text is 0. -/
def blockValue (block : Bytes) (j : Nat) : Int := if j < block.length then (block.getD j 0#8).toInt - 65 else 0

/-- `val` of one row. -/
def rowValue (matrix : Grid n) (block : Bytes) (row : Fin n) : Except Fault Int :=
  (List.finRange n).foldlM (fun val (col : Fin n) => do
    let t ← mul (entry matrix row col) (blockValue block col)
    add val t) 0

def rowChar (matrix : Grid n) (block : Bytes) (row : Fin n) : Except Fault Byte := do
  let x ← mod26 (← rowValue matrix block row)
  return BitVec.ofInt 8 (x + 65)

def multiply (matrix : Grid n) (block : Bytes) : Except Fault Bytes := (List.finRange n).mapM (rowChar matrix block)

def encrypt (hill : Hill n) (plaintext : Bytes) : Except Fault Bytes :=
  BlockLoop.loop (multiply hill.m_keyMatrix) n plaintext 0 []

def decrypt (hill : Hill n) (ciphertext : Bytes) : Except Fault Bytes :=
  BlockLoop.loop (multiply hill.m_inverseKeyMatrix) n ciphertext 0 []

/-! ## Residues -/

theorem mod26_ok (x : Int) : mod26 x = .ok (x % 26) := by
  have htmod : x.tmod 26 = x % 26 ∨ x.tmod 26 = x % 26 - 26 := by
    rw [Int.tmod_eq_emod]
    split
    · exact .inl (Int.sub_zero _)
    · exact .inr rfl
  have hlow : -26 < x.tmod 26 := Int.lt_tmod_of_pos x (by decide)
  have hadd : add (x.tmod 26) 26 = (.ok (x.tmod 26 + 26) : Except Fault Int) := add_ok ⟨by omega, by omega⟩
  have hmod : (x.tmod 26 + 26).tmod 26 = x % 26 := by
    rw [Int.tmod_eq_emod_of_nonneg (by omega)]
    omega
  rw [mod26, hadd]
  exact congrArg Except.ok hmod

/-! ## The determinant -/

/-- All entries are residues. -/
def InRange (matrix : Grid n) : Prop := ∀ i j, 0 ≤ entry matrix i j ∧ entry matrix i j ≤ 25

def toMatrix (matrix : Grid n) : Matrix (Fin n) (Fin n) ℤ := Matrix.of (entry matrix)

theorem sign_cases (p : Nat) : sign p = 1 ∨ sign p = -1 := by
  unfold sign
  split
  · exact .inl rfl
  · exact .inr rfl

theorem sign_eq_pow (p : Nat) : sign p = (-1) ^ p := by
  unfold sign
  split
  · rename_i heven
    exact (Even.neg_one_pow (Nat.even_iff.mpr heven)).symm
  · rename_i hodd
    exact (Odd.neg_one_pow (Nat.odd_iff.mpr (by omega))).symm

theorem entry_ofFn (f : Fin n → Fin n → Int) (i j : Fin n) : entry (.ofFn fun i => .ofFn fun j => f i j) i j = f i j := by
  simp [entry]

theorem inRange_subMatrix {matrix : Grid (n + 1)} (h : InRange matrix) (i j : Fin (n + 1)) :
    InRange (subMatrix matrix i j) := by
  intro row col
  rw [subMatrix, entry_ofFn]
  exact h _ _

theorem toMatrix_subMatrix (matrix : Grid (n + 1)) (i j : Fin (n + 1)) :
    toMatrix (subMatrix matrix i j) = (toMatrix matrix).submatrix i.succAbove j.succAbove := by
  ext row col
  exact entry_ofFn _ row col

/-- A signed product of residues. -/
theorem signed_ok {x y : Int} (p : Nat) (hx : 0 ≤ x ∧ x ≤ 25) (hy : 0 ≤ y ∧ y ≤ 25) :
    mul (sign p) x = (.ok (sign p * x) : Except Fault Int) ∧
      mul (sign p * x) y = (.ok (sign p * x * y) : Except Fault Int) ∧ -625 ≤ sign p * x * y ∧ sign p * x * y ≤ 625 := by
  obtain ⟨h0, hle⟩ := mul_bounds hx hy
  have hone : -25 ≤ sign p * x ∧ sign p * x ≤ 25 := by
    rcases sign_cases p with h | h
    · rw [h]
      omega
    · rw [h]
      omega
  have hboth : -625 ≤ sign p * x * y ∧ sign p * x * y ≤ 625 := by
    rcases sign_cases p with h | h
    · rw [h, one_mul]
      omega
    · rw [h, neg_one_mul, neg_mul]
      omega
  exact ⟨mul_ok ⟨by omega, by omega⟩, mul_ok ⟨by omega, by omega⟩, hboth⟩

theorem emod_bounds (x : Int) : 0 ≤ x % 26 ∧ x % 26 ≤ 25 := by
  omega

theorem emod_of_bounds {x : Int} (h : 0 ≤ x ∧ x ≤ 25) : x % 26 = x := by
  omega

theorem addTerm_ok (p : Nat) {x : Int} (hx : 0 ≤ x ∧ x ≤ 25) (d acc : Int) :
    addTerm p x (d % 26) (acc % 26) = .ok ((acc + sign p * x * d) % 26) := by
  obtain ⟨hfirst, hsecond, hlow, hhigh⟩ := signed_ok p hx (emod_bounds d)
  have hacc := emod_bounds acc
  have hadd : add (acc % 26) (sign p * x * (d % 26)) = (.ok (acc % 26 + sign p * x * (d % 26)) : Except Fault Int) :=
    add_ok ⟨by omega, by omega⟩
  have hmod : (acc % 26 + sign p * x * (d % 26)) % 26 = (acc + sign p * x * d) % 26 :=
    (Int.mod_modEq acc 26).add ((Int.mod_modEq d 26).mul_left _)
  simp only [addTerm, hfirst, hsecond, hadd, mod26_ok, hmod, Bind.bind, Except.bind]

/-- The Laplace expansion along the first row, reduced modulo 26 after each term. -/
theorem foldlM_terms {m : Nat} {row : Fin m → Int} {minor : Fin m → Except Fault Int} {det : Fin m → Int}
    (hrow : ∀ p, 0 ≤ row p ∧ row p ≤ 25) (hminor : ∀ p, minor p = .ok (det p % 26)) (ps : List (Fin m)) (acc : Int) :
    ps.foldlM (fun acc (p : Fin m) => do
      let d ← minor p
      addTerm p.val (row p) d acc) (acc % 26) =
        .ok ((acc + (ps.map fun p : Fin m => sign p * row p * det p).sum) % 26) := by
  induction ps generalizing acc with
  | nil => simp [pure, Except.pure]
  | cons p ps ih =>
    have hstep : (minor p >>= fun d => addTerm p.val (row p) d (acc % 26)) =
        .ok ((acc + sign p * row p * det p) % 26) := by
      rw [hminor]
      exact addTerm_ok p.val (hrow p) (det p) acc
    rw [List.foldlM_cons, hstep, List.map_cons, List.sum_cons, ← add_assoc]
    exact ih _

theorem determinant_one {matrix : Grid 1} (h : InRange matrix) : determinant matrix = .ok ((toMatrix matrix).det % 26) := by
  have hdet : (toMatrix matrix).det = entry matrix 0 0 := Matrix.det_fin_one _
  rw [hdet, emod_of_bounds (h 0 0)]
  rfl

theorem determinant_two {matrix : Grid 2} (h : InRange matrix) : determinant matrix = .ok ((toMatrix matrix).det % 26) := by
  have had := mul_bounds (h 0 0) (h 1 1)
  have hbc := mul_bounds (h 0 1) (h 1 0)
  have hdet : (toMatrix matrix).det = entry matrix 0 0 * entry matrix 1 1 - entry matrix 0 1 * entry matrix 1 0 :=
    Matrix.det_fin_two _
  rw [determinant, mul_ok ⟨by omega, by omega⟩, mul_ok ⟨by omega, by omega⟩]
  simp only [Bind.bind, Except.bind]
  rw [sub_ok ⟨by omega, by omega⟩, hdet]
  exact mod26_ok _

theorem determinant_ok {matrix : Grid (n + 1)} (h : InRange matrix) :
    determinant matrix = .ok ((toMatrix matrix).det % 26) := by
  induction n using Nat.twoStepInduction with
  | zero => exact determinant_one h
  | one => exact determinant_two h
  | more n _ ih =>
    have hminor (p : Fin (n + 3)) : determinant (subMatrix matrix 0 p) =
        .ok (((toMatrix matrix).submatrix Fin.succ p.succAbove).det % 26) := by
      rw [ih (inRange_subMatrix h 0 p), toMatrix_subMatrix, Fin.succAbove_zero]
    have hsum := foldlM_terms (h 0) hminor (List.finRange (n + 3)) 0
    have hdet : ((List.finRange (n + 3)).map fun p : Fin (n + 3) =>
        sign p * entry matrix 0 p * ((toMatrix matrix).submatrix Fin.succ p.succAbove).det).sum =
          (toMatrix matrix).det := by
      rw [Matrix.det_succ_row_zero, Fin.sum_univ_def]
      simp only [sign_eq_pow]
      rfl
    rw [zero_add, hdet, Int.zero_emod] at hsum
    rw [determinant, hsum]
    simp only [Bind.bind, Except.bind]
    rw [mod26_ok, Int.emod_emod]

end Hill

end CryptoChat.Crypto.Classic
