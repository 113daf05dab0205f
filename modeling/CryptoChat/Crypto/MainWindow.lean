/-
  CryptoChat.Crypto.MainWindow — `MainWindow::process` over all the panels
  (`app/crypto/Window.cpp`, `app/crypto/panels.cpp`).

  A panel is what its line edits hold. A validator lets a number be typed that has no more
  digits than its top, whatever the top, and an edit that holds no number counts as 0; so
  `b` may be 99 and the size of a Hill matrix 0 to 9. What is not an exception is `none`:
  a remainder by 0, an `int` that overflows, a read outside a vector.

  `process_none_iff`: the two kinds of input on which `process` ends so: a letter under the
  empty Vigenere key, and in AES decrypt mode a text that is not of whole blocks.
-/

import CryptoChat.Crypto.HillText
import CryptoChat.Crypto.Affine
import CryptoChat.Crypto.Playfair
import CryptoChat.Crypto.VigenereKey
import CryptoChat.Crypto.Window

namespace CryptoChat.Crypto.MainWindow

open CryptoChat.Lib Ctype Classic Window

/-! ## The code -/

/-- The items of `cipherSelect`. -/
inductive Cipher where
  | caesar
  | vigenere
  | affine
  | playfair
  | hill
  | aes
  | rsa
  deriving DecidableEq

/-- What `[A-Za-z]+` lets through, and the empty text before it. -/
abbrev Letters := { key : Bytes // ∀ ch ∈ key, isalpha ch = true }

structure Panels where
  shift : Fin 100
  vigenereKey : Letters
  a : Fin 100
  b : Fin 100
  playfairKey : Letters
  hillKey : Letters
  matrixSize : Fin 10
  keySize : { size : Nat // size ∈ keySizes }
  keyHex : Bytes

/-- What `process` reads. -/
structure Inputs where
  cipherSelect : Cipher
  encryptRadio : Bool
  inputText : Bytes
  panels : Panels

/-- The interface of the classic ciphers: a result or an exception, or neither. -/
structure ICipher where
  encrypt : Bytes → ExceptT String Option Bytes
  decrypt : Bytes → ExceptT String Option Bytes

/-- Only exceptions are caught. -/
def raise {α : Type} (result : Except Fault α) : ExceptT String Option α :=
  ExceptT.mk (match result with
    | .ok value => some (.ok value)
    | .error .overflow => none
    | .error (.invalidArgument what) => some (.error what)
    | .error (.runtimeError what) => some (.error what))

def caesar (shift : Int) : ICipher where
  encrypt text := pure ((Caesar.new shift).encrypt text)
  decrypt text := pure ((Caesar.new shift).decrypt text)

def vigenere (key : Bytes) : ICipher where
  encrypt text := (Vigenere.encrypt key text : Option Bytes)
  decrypt text := (Vigenere.decrypt key text : Option Bytes)

def affine (a b : Int) : ExceptT String Option ICipher := do
  let affine ← raise (Affine.new a b)
  return { encrypt := fun text => raise (affine.encrypt text), decrypt := fun text => raise (affine.decrypt text) }

def playfair (key : Bytes) : ICipher where
  encrypt text := (Playfair.encrypt key text : Option Bytes)
  decrypt text := (Playfair.decrypt key text : Option Bytes)

def hill (key : Bytes) (matrixSize : Nat) : ExceptT String Option ICipher := do
  let hill ← raise (Hill.new key matrixSize)
  return { encrypt := fun text => raise (hill.encrypt text), decrypt := fun text => raise (hill.decrypt text) }

/-- `encryptRadio->isChecked() ? cipher->encrypt(inputStr) : cipher->decrypt(inputStr)`. -/
def crypt (w : Inputs) (cipher : ICipher) : ExceptT String Option Bytes :=
  if w.encryptRadio then cipher.encrypt w.inputText else cipher.decrypt w.inputText

/-- The `try` block. No branch is for RSA, so its result stays empty. -/
def result (w : Inputs) : ExceptT String Option Bytes :=
  match w.cipherSelect with
  | .caesar => crypt w (caesar w.panels.shift.val)
  | .vigenere => crypt w (vigenere w.panels.vigenereKey)
  | .affine => affine w.panels.a.val w.panels.b.val >>= crypt w
  | .playfair => crypt w (playfair w.panels.playfairKey)
  | .hill => hill (w.panels.hillKey.val.map toupper) w.panels.matrixSize.val >>= crypt w
  | .aes => Window.process w.encryptRadio w.panels.keySize w.panels.keyHex w.inputText
  | .rsa => pure []

/-- What is put into `outputText`. -/
def process (w : Inputs) : Option Bytes := (result w).run.map output

/-! ## Ends with a text -/

/-- Ends with a result or an exception. -/
def Defined {α : Type} (x : ExceptT String Option α) : Prop := x.run ≠ none

theorem defined_pure {α : Type} (a : α) : Defined (pure a) := Option.some_ne_none _

theorem defined_bind {α β : Type} {x : ExceptT String Option α} {f : α → ExceptT String Option β} (hx : Defined x)
    (hf : ∀ a, x = pure a → Defined (f a)) : Defined (x >>= f) := by
  obtain ⟨r, hr⟩ := Option.ne_none_iff_exists'.mp hx
  have hrun : x = ExceptT.mk (some r) := hr
  cases r with
  | error what =>
    rw [hrun]
    exact Option.some_ne_none _
  | ok a =>
    rw [hrun]
    exact hf a hrun

theorem defined_lift {α : Type} {x : Option α} (h : x ≠ none) : Defined (x : ExceptT String Option α) := by
  obtain ⟨a, rfl⟩ := Option.ne_none_iff_exists'.mp h
  exact Option.some_ne_none _

theorem not_defined_lift {α : Type} {x : Option α} (h : x = none) : ¬ Defined (x : ExceptT String Option α) := by
  subst h
  exact not_not.mpr rfl

theorem defined_raise {α : Type} {r : Except Fault α} (h : r ≠ .error .overflow) : Defined (raise r) := by
  unfold raise
  match r with
  | .ok value => exact Option.some_ne_none _
  | .error .overflow => exact absurd rfl h
  | .error (.invalidArgument what) => exact Option.some_ne_none _
  | .error (.runtimeError what) => exact Option.some_ne_none _

theorem raise_eq_pure {α : Type} {r : Except Fault α} {a : α} (h : raise r = pure a) : r = .ok a := by
  unfold raise at h
  match r with
  | .ok value =>
    cases h
    rfl
  | .error .overflow => cases h
  | .error (.invalidArgument what) => cases h
  | .error (.runtimeError what) => cases h

/-- A cipher that ends so on every text. -/
def Total (cipher : ICipher) : Prop := ∀ text, Defined (cipher.encrypt text) ∧ Defined (cipher.decrypt text)

theorem defined_crypt {w : Inputs} {cipher : ICipher} (h : Total cipher) : Defined (crypt w cipher) := by
  unfold crypt
  split
  · exact (h _).1
  · exact (h _).2

/-! ## The ciphers one by one -/

theorem total_caesar (shift : Int) : Total (caesar shift) :=
  fun _ => ⟨defined_pure _, defined_pure _⟩

theorem total_playfair (key : Bytes) : Total (playfair key) := by
  intro text
  refine ⟨defined_lift ?_, defined_lift (Playfair.decrypt_total key text)⟩
  obtain ⟨ciphertext, henc, -⟩ := Playfair.decrypt_of_encrypt key text
  rw [henc]
  exact Option.some_ne_none _

/-- The first letter takes the key index modulo 0. -/
theorem walk_eq_none {f : Int → Int → Int} {key : Bytes} {keyIndex : Nat} {text : Bytes} :
    Vigenere.walk f key keyIndex text = none ↔ key = [] ∧ ∃ ch ∈ text, isalpha ch = true := by
  rcases eq_or_ne key [] with rfl | hne
  · induction text generalizing keyIndex with
    | nil => simp [Vigenere.walk]
    | cons ch text ih =>
      rw [Vigenere.walk, if_pos List.length_nil]
      split
      · rename_i hch
        simp [hch]
      · rename_i hch
        simp [hch, ih]
  · simp [Vigenere.walk_eq hne, hne]

theorem defined_vigenere (w : Inputs) (key : Bytes) :
    Defined (crypt w (vigenere key)) ↔ ¬ (key = [] ∧ ∃ ch ∈ w.inputText, isalpha ch = true) := by
  unfold crypt
  split
  · rw [← walk_eq_none]
    exact ⟨fun h hnone => not_defined_lift hnone h, defined_lift⟩
  · rw [← walk_eq_none]
    exact ⟨fun h hnone => not_defined_lift hnone h, defined_lift⟩

theorem total_affine {affine : Affine} (hrange : affine.InRange) (hpos : 0 < affine.m_a) :
    Total ⟨fun text => raise (affine.encrypt text), fun text => raise (affine.decrypt text)⟩ := by
  intro text
  obtain ⟨i, hi, hinv⟩ := Affine.modInverse_ok hpos
  refine ⟨defined_raise ?_, defined_raise ?_⟩
  · rw [Affine.encrypt_ok hrange]
    exact nofun
  · rw [Affine.decrypt_ok hrange hi hinv]
    exact nofun

/-- What the constructor takes is prime to 26, so it is not 0. -/
theorem defined_affine (w : Inputs) (a b : Fin 100) : Defined (affine a.val b.val >>= crypt w) := by
  rw [affine, bind_assoc]
  refine defined_bind (defined_raise ?_) ?_
  · intro hoverflow
    unfold Affine.new at hoverflow
    split at hoverflow
    · cases hoverflow
    · cases hoverflow
  · intro made hmade
    obtain ⟨ha, hb⟩ := Affine.new_eq_ok (raise_eq_pure hmade)
    have hne : made.m_a ≠ 0 := by
      intro hzero
      have hgcd := made.gcd_eq_one
      rw [hzero] at hgcd
      exact absurd hgcd (by decide)
    have hrange : made.InRange := by
      rw [Affine.InRange, ha, hb, abs_le, abs_le]
      omega
    rw [pure_bind]
    exact defined_crypt (total_affine hrange (by omega))

/-! ## Hill -/

/-- A character is at most 193 from `A`. -/
theorem blockValue_abs (block : Bytes) (j : Nat) : |Hill.blockValue block j| ≤ 193 := by
  have hbounds := BitVec.le_toInt (block.getD j 0#8)
  have htop := BitVec.toInt_lt (x := block.getD j 0#8)
  rw [abs_le, Hill.blockValue]
  split
  · omega
  · omega

/-- On any characters, letters or not. -/
theorem multiply_total {n : Nat} {matrix : Grid n} (hm : Hill.InRange matrix) (hmax : n ≤ 9) (block : Bytes) :
    ∃ out, Hill.multiply matrix block = pure out := by
  have hterm (row col : Fin n) : ∃ value, (CheckedInt.mul (entry matrix row col) (Hill.blockValue block col) :
      Except Fault Int) = .ok value ∧ |value| ≤ 4825 := by
    obtain ⟨h0, h25⟩ := hm row col
    have hprod : |entry matrix row col * Hill.blockValue block col| ≤ 25 * 193 := by
      rw [abs_mul, abs_of_nonneg h0]
      exact mul_le_mul h25 (blockValue_abs block col) (abs_nonneg _) (by decide)
    obtain ⟨hlow, hhigh⟩ := abs_le.mp hprod
    exact ⟨_, CheckedInt.mul_ok ⟨by omega, by omega⟩, hprod⟩
  have hlen : ((List.finRange n).length : Int) = n := by rw [List.length_finRange]
  have hrow (row : Fin n) : ∃ ch, Hill.rowChar matrix block row = .ok ch := by
    obtain ⟨value, hvalue⟩ := CheckedInt.foldlM_ok (l := List.finRange n) (fun col _ => hterm row col)
      (show |(0 : Int)| + _ ≤ _ by rw [hlen, abs_zero]; omega)
    refine ⟨BitVec.ofInt 8 (value % 26 + 65), ?_⟩
    rw [Hill.rowChar, Hill.rowValue, hvalue]
    simp only [Bind.bind, Except.bind, Hill.mod26_ok]
    rfl
  choose chars hchars using hrow
  refine ⟨(List.finRange n).map chars, ?_⟩
  rw [Hill.multiply, funext hchars]
  exact List.mapM_pure

theorem total_hill {n : Nat} {hill : Hill n} (hmax : n ≤ 9) (hkey : Hill.InRange hill.m_keyMatrix)
    (hinverse : Hill.InRange hill.m_inverseKeyMatrix) :
    Total ⟨fun text => raise (hill.encrypt text), fun text => raise (hill.decrypt text)⟩ := by
  intro text
  have hloop {matrix : Grid n} (hmatrix : Hill.InRange matrix) :
      ∃ out, BlockLoop.loop (Hill.multiply matrix) n text 0 [] = pure out :=
    BlockLoop.loop_total (multiply_total hmatrix hmax) 0 []
  obtain ⟨ciphertext, henc⟩ := hloop hkey
  obtain ⟨plaintext, hdec⟩ := hloop hinverse
  refine ⟨defined_raise ?_, defined_raise ?_⟩
  · rw [Hill.encrypt, henc]
    exact nofun
  · rw [Hill.decrypt, hdec]
    exact nofun

/-- The constructor on every size that can be typed: an exception, or two matrices of residues. -/
theorem new_cases (key : Letters) (n : Nat) (hmax : n ≤ 9) : (∃ what, Hill.new key n = .error (.invalidArgument what)) ∨
    (∃ what, Hill.new key n = .error (.runtimeError what)) ∨
      ∃ hill, Hill.new key n = .ok hill ∧ Hill.InRange hill.m_keyMatrix ∧ Hill.InRange hill.m_inverseKeyMatrix := by
  by_cases hlen : n * n ≤ key.val.length
  · rw [Hill.new_eq (by omega) hlen]
    have hrange := Hill.inRange_keyGrid hlen key.2
    match n with
    | 0 => exact .inr (.inl ⟨_, rfl⟩)
    | 1 =>
      by_cases hgcd : Int.gcd (Hill.toMatrix (Hill.keyGrid key.val 1)).det 26 = 1
      · refine .inr (.inr ⟨_, Hill.ofKeyGrid_one hrange hgcd, hrange, ?_⟩)
        intro i j
        rw [Hill.entry_ofFn]
        exact ⟨by decide, by decide⟩
      · exact .inr (.inl ⟨_, Hill.ofKeyGrid_fails hrange hgcd⟩)
    | n + 2 =>
      by_cases hgcd : Int.gcd (Hill.toMatrix (Hill.keyGrid key.val (n + 2))).det 26 = 1
      · obtain ⟨hill, hok, hgrid, hinverse, -⟩ := Hill.ofKeyGrid_ok hrange hgcd
        exact .inr (.inr ⟨hill, hok, hgrid ▸ hrange, hinverse⟩)
      · exact .inr (.inl ⟨_, Hill.ofKeyGrid_fails hrange hgcd⟩)
  · refine .inl ⟨"Hill: key string too short for matrix size.", ?_⟩
    have hn : n * n ≤ 9 * 9 := Nat.mul_le_mul hmax hmax
    have hmul : CheckedInt.mul (n : Int) n = (.ok ((n * n : Nat) : Int) : Except Fault Int) :=
      CheckedInt.mul_ok ⟨by omega, by omega⟩
    have hshort : (key.val.length : Int) < ((n * n : Nat) : Int) := by omega
    simp only [Hill.new, hmul, hshort, Bind.bind, Except.bind, if_true]
    rfl

theorem defined_hill (w : Inputs) :
    Defined (hill (w.panels.hillKey.val.map toupper) w.panels.matrixSize.val >>= crypt w) := by
  have hletters : ∀ ch ∈ w.panels.hillKey.val.map toupper, isalpha ch = true := by
    intro ch hch
    obtain ⟨c, hc, rfl⟩ := List.mem_map.mp hch
    exact Vigenere.isalpha_toupper c (w.panels.hillKey.2 c hc)
  have hmax : w.panels.matrixSize.val ≤ 9 := Nat.le_of_lt_succ w.panels.matrixSize.isLt
  have hcases := new_cases ⟨_, hletters⟩ _ hmax
  rw [hill, bind_assoc]
  refine defined_bind (defined_raise ?_) ?_
  · rcases hcases with ⟨what, h⟩ | ⟨what, h⟩ | ⟨made, h, -⟩
    · rw [h]
      exact nofun
    · rw [h]
      exact nofun
    · rw [h]
      exact nofun
  · intro made hmade
    rcases hcases with ⟨what, h⟩ | ⟨what, h⟩ | ⟨made', h, hkey, hinverse⟩
    · rw [raise_eq_pure hmade] at h
      cases h
    · rw [raise_eq_pure hmade] at h
      cases h
    · rw [raise_eq_pure hmade] at h
      cases h
      rw [pure_bind]
      exact defined_crypt (total_hill hmax hkey hinverse)

/-! ## AES -/

theorem makeAes_cases (keySize : { size : Nat // size ∈ keySizes }) (keyHex : Bytes) :
    keyHex.length / 2 = keySize ∧ (∃ aes, makeAes keySize keyHex = .ok aes) ∨
      keyHex.length / 2 ≠ keySize ∧ makeAes keySize keyHex = .error "Key hex length mismatch" := by
  obtain ⟨hvalid, hnew⟩ := new_ok keySize.2
  have hlen := Utils.length_fromHex keyHex
  by_cases heq : keyHex.length / 2 = keySize
  · refine .inl ⟨heq, Aes.AES.keyExpansion ⟨keySize, Vector.replicate 240 0#8, hvalid⟩ (Utils.fromHex keyHex), ?_⟩
    have hset : Aes.AES.setKey ⟨keySize, Vector.replicate 240 0#8, hvalid⟩ (Utils.fromHex keyHex) =
        (.ok (), Aes.AES.keyExpansion ⟨keySize, Vector.replicate 240 0#8, hvalid⟩ (Utils.fromHex keyHex)) :=
      if_neg (not_not.mpr (hlen.trans heq))
    simp [makeAes, hnew, hset, hlen, heq, Bind.bind, Except.bind, pure, Except.pure]
  · refine .inr ⟨heq, ?_⟩
    simp [makeAes, hnew, hlen, heq, Bind.bind, Except.bind, throw, throwThe, MonadExceptOf.throw]

theorem defined_aes (encrypting : Bool) (keySize : { size : Nat // size ∈ keySizes }) (keyHex text : Bytes) :
    Defined (Window.process encrypting keySize keyHex text) ↔
      ¬ (encrypting = false ∧ keyHex.length / 2 = keySize ∧ ¬ 16 ∣ text.length / 2) := by
  rcases makeAes_cases keySize keyHex with ⟨heq, aes, haes⟩ | ⟨hne, hmake⟩
  · cases encrypting with
    | true =>
      obtain ⟨shown, henc, -⟩ := decrypt_of_encrypt aes text
      have hprocess : Window.process true keySize keyHex text = pure shown := by
        rw [Window.process, haes]
        exact henc
      simp [hprocess, defined_pure]
    | false =>
      have hlen := Utils.length_fromHex text
      by_cases hwhole : 16 ∣ text.length / 2
      · obtain ⟨r, hr, -⟩ := (decrypts_whole haes (hlen ▸ hwhole)).ends
        have hdefined : Defined (Window.process false keySize keyHex text) := Option.ne_none_iff_exists'.mpr ⟨r, hr⟩
        simp [hdefined, hwhole]
      · have hshort : (decrypt aes text).run = none := decrypt_short aes (hlen ▸ hwhole)
        rw [process_decrypt haes]
        simp [Defined, hshort, heq, hwhole]
  · rw [Window.process, hmake]
    simp only [hne, false_and, and_false, not_false_eq_true, iff_true]
    exact Option.some_ne_none _

/-! ## The window -/

/-- A letter under the empty Vigenere key, or a text of AES decrypt mode that is not of whole
    blocks, under a key that is accepted. -/
def Faults (w : Inputs) : Prop :=
  w.cipherSelect = .vigenere ∧ w.panels.vigenereKey.val = [] ∧ (∃ ch ∈ w.inputText, isalpha ch = true) ∨
    w.cipherSelect = .aes ∧ w.encryptRadio = false ∧ w.panels.keyHex.length / 2 = w.panels.keySize ∧
      ¬ 16 ∣ w.inputText.length / 2

theorem defined_result (w : Inputs) : Defined (result w) ↔ ¬ Faults w := by
  rw [result, Faults]
  cases w.cipherSelect with
  | caesar => simp [defined_crypt (total_caesar _)]
  | vigenere => simp [defined_vigenere]
  | affine => simp [defined_affine]
  | playfair => simp [defined_crypt (total_playfair _)]
  | hill => simp [defined_hill]
  | aes => simp [defined_aes]
  | rsa => simp [defined_pure]

/-- For all that can be selected and typed. -/
theorem process_none_iff (w : Inputs) : process w = none ↔ Faults w := by
  have hdefined := not_congr (defined_result w)
  rw [Defined, not_not, not_not] at hdefined
  rw [process, Option.map_eq_none_iff, hdefined]

end CryptoChat.Crypto.MainWindow
