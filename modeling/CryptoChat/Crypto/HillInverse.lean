/-
  CryptoChat.Crypto.HillInverse — which keys the Hill constructor accepts, and whether the
  matrix it stores inverts the key matrix modulo 26.

  From size 2 on the cofactors are those of the adjugate, so the stored matrix is the
  inverse of every key matrix whose determinant has one (`ofKeyGrid_ok`). The cofactor of a
  matrix of size 1 is the determinant of one of size 0, for which the code has 0, so there
  the stored matrix is 0; and from size 46341 on `matrixSize * matrixSize` is not an `int`.
  These are the only failures (`new_meets`).
-/

import CryptoChat.Crypto.Hill

namespace CryptoChat.Crypto.Classic.Hill

open CryptoChat.Lib Ctype CheckedInt

variable {n : Nat}

/-! ## The adjugate -/

theorem ofFnM_ok {α : Type} {f : Fin n → Except Fault α} {g : Fin n → α} (h : ∀ i, f i = .ok (g i)) :
    Vector.ofFnM f = .ok (Vector.ofFn g) := by
  rw [funext h]
  exact Vector.ofFnM_pure

/-- A grid made entry by entry. -/
theorem ofFnM_grid_ok {f : Fin n → Fin n → Except Fault Int} {g : Fin n → Fin n → Int} (h : ∀ i j, f i j = .ok (g i j)) :
    (Vector.ofFnM fun i => Vector.ofFnM fun j => f i j) = .ok (.ofFn fun i => .ofFn fun j => g i j) :=
  ofFnM_ok fun i => ofFnM_ok (h i)

theorem cofactor_ok {matrix : Grid (n + 2)} (h : InRange matrix) (i j : Fin (n + 2)) :
    cofactor matrix i j = .ok ((toMatrix matrix).adjugate j i % 26) := by
  have hadj : (toMatrix matrix).adjugate j i =
      sign (i + j) * ((toMatrix matrix).submatrix i.succAbove j.succAbove).det := by
    rw [Matrix.adjugate_fin_succ_eq_det_submatrix, sign_eq_pow]
  have hdet : determinant (subMatrix matrix i j) =
      .ok (((toMatrix matrix).submatrix i.succAbove j.succAbove).det % 26) := by
    rw [determinant_ok (inRange_subMatrix h i j), toMatrix_subMatrix]
  obtain ⟨hmul, -, -, -⟩ := signed_ok (i + j) (emod_bounds ((toMatrix matrix).submatrix i.succAbove j.succAbove).det)
    (emod_bounds 0)
  rw [cofactor, hdet, hadj]
  simp only [Bind.bind, Except.bind, hmul, mod26_ok]
  exact congrArg Except.ok ((Int.mod_modEq _ 26).mul_left _)

theorem adjugate_ok {matrix : Grid (n + 2)} (h : InRange matrix) :
    adjugate matrix = .ok (.ofFn fun i => .ofFn fun j => (toMatrix matrix).adjugate i j % 26) := by
  rw [adjugate, ofFnM_grid_ok (cofactor_ok h)]
  simp only [Bind.bind, Except.bind, entry_ofFn]
  rfl

/-- The cofactor of a matrix of size 1, whatever its entry. -/
theorem adjugate_one (matrix : Grid 1) : adjugate matrix = .ok (.ofFn fun _ => .ofFn fun _ => 0) := by
  have hcofactor (i j : Fin 1) : cofactor matrix i j = .ok 0 := by
    rw [Subsingleton.elim i 0, Subsingleton.elim j 0]
    rfl
  rw [adjugate, ofFnM_grid_ok hcofactor]
  simp only [Bind.bind, Except.bind, entry_ofFn]
  rfl

/-! ## The inverse of the determinant -/

/-- A residue, as one of 26. -/
theorem residue_cases (d : Int) : ∃ r : Fin 26, d % 26 = (r.val : Int) ∧ Int.gcd r.val 26 = Int.gcd d 26 := by
  have hbounds := emod_bounds d
  have hcast : d % 26 = ((d % 26).toNat : Int) := (Int.toNat_of_nonneg hbounds.1).symm
  refine ⟨⟨(d % 26).toNat, by omega⟩, hcast, ?_⟩
  rw [← hcast, Int.gcd_emod]

/-- Found for the residues that are prime to 26. -/
theorem modInverse_ok {d : Int} (h : Int.gcd d 26 = 1) :
    ∃ x, modInverse (d % 26) 26 = .ok x ∧ (0 ≤ x ∧ x ≤ 25) ∧ (d * x) % 26 = 1 := by
  have hall : ∀ r : Fin 26, Int.gcd r.val 26 = 1 → ∃ x : Fin 26, modInverse r.val 26 = .ok (x.val : Int) ∧
      (r.val * x.val : Int) % 26 = 1 := by decide
  obtain ⟨r, hr, hgcd⟩ := residue_cases d
  obtain ⟨x, hx, hone⟩ := hall r (hgcd.trans h)
  refine ⟨x.val, hr ▸ hx, by omega, ?_⟩
  rw [← hone, ← hr]
  exact ((Int.mod_modEq d 26).mul_right _).symm

theorem modInverse_fails {d : Int} (h : Int.gcd d 26 ≠ 1) :
    modInverse (d % 26) 26 = .error (.runtimeError "Modular inverse does not exist.") := by
  have hall : ∀ r : Fin 26, Int.gcd r.val 26 ≠ 1 →
      modInverse r.val 26 = .error (.runtimeError "Modular inverse does not exist.") := by decide
  obtain ⟨r, hr, hgcd⟩ := residue_cases d
  rw [hr]
  exact hall r (hgcd ▸ h)

/-! ## The constructor -/

/-- `m_keyMatrix`, from a string that is long enough. -/
def keyGrid (key : Bytes) (n : Nat) : Grid n := .ofFn fun i => .ofFn fun j => letterValue (key.getD (i * n + j) 0#8)

/-- The key matrix over the integers. -/
def keyMatrix (key : Bytes) (n : Nat) : Matrix (Fin n) (Fin n) ℤ := fun i j => letterValue (key.getD (i * n + j) 0#8)

theorem toMatrix_keyGrid (key : Bytes) (n : Nat) : toMatrix (keyGrid key n) = keyMatrix key n := by
  ext i j
  exact entry_ofFn _ i j

theorem letterValue_bounds {ch : Byte} (h : isalpha ch = true) : 0 ≤ letterValue ch ∧ letterValue ch ≤ 25 := by
  have hall : ∀ ch : Byte, isalpha ch = true → 0 ≤ letterValue ch ∧ letterValue ch ≤ 25 := by decide
  exact hall ch h

/-- The place of an entry in the key string. -/
theorem place_lt {i j : Nat} (hi : i < n) (hj : j < n) : i * n + j < n * n := by
  have hrow : (i + 1) * n ≤ n * n := Nat.mul_le_mul_right n hi
  rw [Nat.add_one_mul] at hrow
  omega

theorem inRange_keyGrid {key : Bytes} (hlen : n * n ≤ key.length) (hkey : ∀ ch ∈ key, isalpha ch = true) :
    InRange (keyGrid key n) := by
  intro i j
  have hlt : i.val * n + j.val < key.length := Nat.lt_of_lt_of_le (place_lt i.isLt j.isLt) hlen
  rw [keyGrid, entry_ofFn, List.getD_eq_getElem?_getD, List.getElem?_eq_getElem hlt]
  exact letterValue_bounds (hkey _ (List.getElem_mem hlt))

theorem keyEntry_ok (key : Bytes) (hmax : n ≤ 46340) (i j : Fin n) :
    keyEntry key n i j = .ok (letterValue (key.getD (i * n + j) 0#8)) := by
  have hn : n * n ≤ 46340 * 46340 := Nat.mul_le_mul hmax hmax
  have hlt := place_lt i.isLt j.isLt
  have hmul : mul (i.val : Int) n = (.ok ((i.val * n : Nat) : Int) : Except Fault Int) :=
    mul_ok ⟨by omega, by omega⟩
  have hadd : add ((i.val * n : Nat) : Int) j.val = (.ok ((i.val * n + j.val : Nat) : Int) : Except Fault Int) :=
    add_ok ⟨by omega, by omega⟩
  simp only [keyEntry, hmul, hadd, Bind.bind, Except.bind, Int.toNat_natCast]
  rfl

/-- The rest of the constructor, once the key matrix is there. -/
def ofKeyGrid (grid : Grid n) : Except Fault (Hill n) := do
  let det ← determinant grid
  let detInv ← modInverse det 26
  let adj ← adjugate grid
  let m_inverseKeyMatrix ← Vector.ofFnM fun i => Vector.ofFnM fun j => do mod26 (← mul (entry adj i j) detInv)
  return ⟨grid, m_inverseKeyMatrix⟩

theorem new_eq {key : Bytes} (hmax : n ≤ 46340) (hlen : n * n ≤ key.length) : new key n = ofKeyGrid (keyGrid key n) := by
  have hn : n * n ≤ 46340 * 46340 := Nat.mul_le_mul hmax hmax
  have hmul : mul (n : Int) n = (.ok ((n * n : Nat) : Int) : Except Fault Int) :=
    mul_ok ⟨by omega, by omega⟩
  have hlong : ¬ (key.length : Int) < ((n * n : Nat) : Int) := by omega
  have hgrid := ofFnM_grid_ok (keyEntry_ok key hmax)
  simp only [new, hmul, hlong, hgrid, Bind.bind, Except.bind, if_false]
  rfl

/-- `matrixSize * matrixSize` leaves the range of `int`. -/
theorem new_overflow (key : Bytes) (hbig : 46341 ≤ n) : new key n = .error .overflow := by
  have hn : 46341 * 46341 ≤ n * n := Nat.mul_le_mul hbig hbig
  have hmul : mul (n : Int) n = (.error .overflow : Except Fault Int) := by
    refine fit_overflow ?_
    rintro ⟨-, h⟩
    have hcast : ((n * n : Nat) : Int) ≤ 2147483647 := by
      push_cast
      exact h
    omega
  rw [new, hmul]
  rfl

/-! ## The stored matrix -/

/-- A matrix modulo 26. -/
def residues (matrix : Grid n) : Matrix (Fin n) (Fin n) (ZMod 26) := (toMatrix matrix).map (Int.castRingHom (ZMod 26))

theorem residues_apply (matrix : Grid n) (i j : Fin n) : residues matrix i j = (entry matrix i j : ZMod 26) := rfl

theorem ofKeyGrid_fails {grid : Grid (n + 1)} (h : InRange grid) (hgcd : Int.gcd (toMatrix grid).det 26 ≠ 1) :
    ofKeyGrid grid = .error (.runtimeError "Modular inverse does not exist.") := by
  simp only [ofKeyGrid, determinant_ok h, modInverse_fails hgcd, Bind.bind, Except.bind]

/-- The adjugate times the inverse of the determinant. -/
theorem ofKeyGrid_ok {grid : Grid (n + 2)} (h : InRange grid) (hgcd : Int.gcd (toMatrix grid).det 26 = 1) :
    ∃ hill, ofKeyGrid grid = .ok hill ∧ hill.m_keyMatrix = grid ∧ InRange hill.m_inverseKeyMatrix ∧
      residues hill.m_inverseKeyMatrix * residues grid = 1 := by
  obtain ⟨x, hx, hxb, hone⟩ := modInverse_ok hgcd
  have hentry (i j : Fin (n + 2)) : (do mod26 (← mul (entry (.ofFn fun i => .ofFn fun j =>
      (toMatrix grid).adjugate i j % 26) i j) x)) = .ok ((toMatrix grid).adjugate i j * x % 26) := by
    obtain ⟨hlow, hhigh⟩ := mul_bounds (emod_bounds ((toMatrix grid).adjugate i j)) hxb
    rw [entry_ofFn, mul_ok ⟨by omega, by omega⟩]
    simp only [Bind.bind, Except.bind, mod26_ok]
    exact congrArg Except.ok ((Int.mod_modEq _ 26).mul_right x)
  refine ⟨⟨grid, .ofFn fun i => .ofFn fun j => (toMatrix grid).adjugate i j * x % 26⟩, ?_, rfl, ?_, ?_⟩
  · have hinverse := ofFnM_grid_ok hentry
    simp only [Bind.bind] at hinverse
    simp only [ofKeyGrid, determinant_ok h, hx, adjugate_ok h, Bind.bind, Except.bind] at hinverse ⊢
    rw [hinverse]
    rfl
  · intro i j
    rw [entry_ofFn]
    exact emod_bounds _
  · have hunit : ((toMatrix grid).det : ZMod 26) * x = 1 := by
      have hcast := (ZMod.intCast_eq_intCast_iff' ((toMatrix grid).det * x) 1 26).mpr hone
      simpa using hcast
    have hscaled : residues (.ofFn fun i => .ofFn fun j => (toMatrix grid).adjugate i j * x % 26) =
        (x : ZMod 26) • (residues grid).adjugate := by
      have hmap := (Int.castRingHom (ZMod 26)).map_adjugate (toMatrix grid)
      ext i j
      have hmod : (((toMatrix grid).adjugate i j * x % 26 : ℤ) : ZMod 26) = ((toMatrix grid).adjugate i j * x : ℤ) :=
        ZMod.intCast_mod _ 26
      rw [residues_apply, entry_ofFn, hmod, Int.cast_mul, mul_comm, Matrix.smul_apply, smul_eq_mul]
      exact congrArg ((x : ZMod 26) * ·) (congrFun (congrFun hmap i) j)
    have hdet : (residues grid).det = ((toMatrix grid).det : ZMod 26) :=
      ((Int.castRingHom (ZMod 26)).map_det (toMatrix grid)).symm
    rw [hscaled, Matrix.smul_mul, Matrix.adjugate_mul, smul_smul, hdet, mul_comm, hunit, one_smul]

/-- At size 1 the stored matrix is 0. -/
theorem ofKeyGrid_one {grid : Grid 1} (h : InRange grid) (hgcd : Int.gcd (toMatrix grid).det 26 = 1) :
    ofKeyGrid grid = .ok ⟨grid, .ofFn fun _ => .ofFn fun _ => 0⟩ := by
  obtain ⟨x, hx, -, -⟩ := modInverse_ok hgcd
  have hentry (i j : Fin 1) : (do mod26 (← mul (entry (.ofFn fun _ => .ofFn fun _ => 0) i j) x)) = .ok 0 := by
    rw [entry_ofFn, mul_ok ⟨by omega, by omega⟩]
    simp only [Bind.bind, Except.bind, mod26_ok, zero_mul, Int.zero_emod]
  have hinverse := ofFnM_grid_ok hentry
  simp only [ofKeyGrid, determinant_ok h, hx, adjugate_one, Bind.bind, Except.bind] at hinverse ⊢
  rw [hinverse]
  rfl

/-- What is asked of the constructor: an exception for a determinant that shares a factor
    with 26, and else the inverse matrix. -/
structure Meets (key : Bytes) (n : Nat) : Prop where
  rejects : Int.gcd (keyMatrix key n).det 26 ≠ 1 →
    ∃ what, new key n = .error (.runtimeError what) ∨ new key n = .error (.invalidArgument what)
  accepts : Int.gcd (keyMatrix key n).det 26 = 1 →
    ∃ hill, new key n = .ok hill ∧ toMatrix hill.m_keyMatrix = keyMatrix key n ∧
      residues hill.m_inverseKeyMatrix * residues hill.m_keyMatrix = 1

theorem meets_from_two {key : Bytes} (hmax : n + 2 ≤ 46340) (hlen : (n + 2) * (n + 2) ≤ key.length)
    (hkey : ∀ ch ∈ key, isalpha ch = true) : Meets key (n + 2) := by
  have hrange := inRange_keyGrid hlen hkey
  refine ⟨?_, ?_⟩
  · intro hgcd
    rw [← toMatrix_keyGrid] at hgcd
    rw [new_eq hmax hlen, ofKeyGrid_fails hrange hgcd]
    exact ⟨_, .inl rfl⟩
  · intro hgcd
    rw [← toMatrix_keyGrid] at hgcd
    obtain ⟨hill, hok, hgrid, -, hone⟩ := ofKeyGrid_ok hrange hgcd
    exact ⟨hill, (new_eq hmax hlen).trans hok, hgrid ▸ toMatrix_keyGrid key _, hgrid ▸ hone⟩

theorem det_keyMatrix_one (key : Bytes) : (keyMatrix key 1).det = letterValue (key.getD 0 0#8) := Matrix.det_fin_one _

/-- At size 1 only the exceptions are right. -/
theorem meets_one {key : Bytes} (hlen : 1 * 1 ≤ key.length) (hkey : ∀ ch ∈ key, isalpha ch = true) :
    Meets key 1 ↔ Int.gcd (letterValue (key.getD 0 0#8)) 26 ≠ 1 := by
  have hrange := inRange_keyGrid hlen hkey
  have hgrid : (toMatrix (keyGrid key 1)).det = letterValue (key.getD 0 0#8) := by
    rw [toMatrix_keyGrid, det_keyMatrix_one]
  constructor
  · intro h hgcd
    obtain ⟨hill, hok, -, hone⟩ := h.accepts (det_keyMatrix_one key ▸ hgcd)
    rw [new_eq (by decide) hlen, ofKeyGrid_one hrange (hgrid ▸ hgcd)] at hok
    cases hok
    have hzero := congrFun (congrFun hone 0) 0
    rw [Matrix.mul_apply, Fin.sum_univ_one, residues_apply, entry_ofFn, Int.cast_zero, zero_mul] at hzero
    cases hzero
  · intro hgcd
    refine ⟨?_, ?_⟩
    · intro _
      rw [new_eq (by decide) hlen, ofKeyGrid_fails hrange (hgrid ▸ hgcd)]
      exact ⟨_, .inl rfl⟩
    · intro hone
      exact absurd (det_keyMatrix_one key ▸ hone) hgcd

theorem not_meets_of_big (key : Bytes) (hbig : 46341 ≤ n) : ¬ Meets key n := by
  intro h
  by_cases hgcd : Int.gcd (keyMatrix key n).det 26 = 1
  · obtain ⟨hill, hok, -, -⟩ := h.accepts hgcd
    rw [new_overflow key hbig] at hok
    cases hok
  · obtain ⟨what, hwhat⟩ := h.rejects hgcd
    rw [new_overflow key hbig] at hwhat
    rcases hwhat with hwhat | hwhat
    · cases hwhat
    · cases hwhat

/-- The constructor does what is asked for every key of sizes 2 to 46340, and at size 1 for
    the letters it rejects. -/
theorem new_meets {n : Nat} (hn : 1 ≤ n) {key : Bytes} (hlen : n * n ≤ key.length)
    (hkey : ∀ ch ∈ key, isalpha ch = true) :
    Meets key n ↔ n ≤ 46340 ∧ (n = 1 → Int.gcd (letterValue (key.getD 0 0#8)) 26 ≠ 1) := by
  by_cases hmax : n ≤ 46340
  · match n, hn with
    | 1, _ =>
      rw [meets_one hlen hkey]
      simp
    | n + 2, _ =>
      constructor
      · intro _
        exact ⟨hmax, by simp⟩
      · intro _
        exact meets_from_two hmax hlen hkey
  · constructor
    · intro h
      exact absurd h (not_meets_of_big key (by omega))
    · intro h
      exact absurd h.1 hmax

/-- The key of the textbook example. -/
theorem new_meets_textbook : Meets (ascii "GYBNQKURP".toList) 3 ↔
    3 ≤ 46340 ∧ (3 = 1 → Int.gcd (letterValue ((ascii "GYBNQKURP".toList).getD 0 0#8)) 26 ≠ 1) :=
  new_meets (by decide) (by decide) (by decide)

/-- The key `D` of size 1: 3 has an inverse modulo 26, and the matrix stored is 0. -/
theorem new_one_letter : ¬ ∀ (n : Nat) (key : Bytes), 1 ≤ n → n * n ≤ key.length →
    (∀ ch ∈ key, isalpha ch = true) → Meets key n := by
  intro h
  have hmeets := h 1 [chr 'D'] (by decide) (by decide) (by decide)
  have hgcd := (meets_one (by decide) (by decide)).mp hmeets
  exact hgcd (by decide)

end CryptoChat.Crypto.Classic.Hill
