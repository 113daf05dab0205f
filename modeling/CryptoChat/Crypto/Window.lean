/-
  CryptoChat.Crypto.Window — `MainWindow::process` on the AES panel (`app/crypto/Window.cpp`).

  A text is its bytes: the conversions from and to `QString` pass them on. The result is
  what the `try` block makes, or the `what()` of an exception, which is shown after
  `[Error] `; it is `none` when the code reads outside its vectors.

  `process_gives_back`: what encrypting shows decrypts to the text that was encrypted.
  `output_mismatch`: a key of another length is shown as an error. `decrypts_iff`: decrypt
  mode stays inside its vectors exactly on texts that make whole blocks.
-/

import CryptoChat.Crypto.AesInverse
import CryptoChat.Crypto.Utils
import CryptoChat.Lib.BlockLoop

namespace CryptoChat.Crypto.Window

open CryptoChat.Lib Ctype Aes Utils

/-- The items of `sizeCombo` in `ModernAESPanel`. -/
def keySizes : List Nat := [16, 24, 32]

/-- One round of the loops over the blocks. A block that is not whole is copied from
    beyond the end of the vector. -/
def onBlock (cipher : Bytes → Except String Bytes) (block : Bytes) : ExceptT String Option Bytes :=
  if block.length = 16 then ExceptT.mk (some (cipher block)) else none

/-- The object with its key, or the exception on the way to it. -/
def makeAes (keySize : Nat) (keyHex : Bytes) : Except String AES := do
  let aes ← AES.new keySize
  let keyBytes := fromHex keyHex
  if keyBytes.length ≠ keySize then throw "Key hex length mismatch"
  let (result, aes) := aes.setKey keyBytes
  let _ ← result
  return aes

def encrypt (aes : AES) (inputStr : Bytes) : ExceptT String Option Bytes := do
  let data := pad inputStr 16
  let encrypted ← BlockLoop.loop (onBlock aes.encryptBlock) 16 data 0 []
  return toHex encrypted

/-- What `unpad` returns is not looked at. -/
def decrypt (aes : AES) (inputStr : Bytes) : ExceptT String Option Bytes := do
  let data := fromHex inputStr
  let decrypted ← BlockLoop.loop (onBlock aes.decryptBlock) 16 data 0 []
  let (_, decrypted) ← ((unpad decrypted : Option (Bool × Bytes)) : ExceptT String Option (Bool × Bytes))
  return decrypted

/-- `index == 5`, with the state of `encryptRadio`. -/
def process (encrypting : Bool) (keySize : Nat) (keyHex inputStr : Bytes) : ExceptT String Option Bytes := do
  let aes ← ExceptT.mk (some (makeAes keySize keyHex))
  if encrypting then encrypt aes inputStr else decrypt aes inputStr

/-- What is put into `outputText`. -/
def output : Except String Bytes → Bytes
  | .ok result => result
  | .error what => ascii "[Error] ".toList ++ ascii what.toList

/-! ## There and back -/

theorem onBlock_undone (aes : AES) (block : Bytes) (hblock : block.length = 16) :
    ∃ out, onBlock aes.encryptBlock block = pure out ∧ out.length = 16 ∧ onBlock aes.decryptBlock out = pure block := by
  have hok : aes.encryptBlock block = .ok (storeState (aes.encryptState (loadState block))) := by
    rw [AES.encryptBlock, if_neg (not_not.mpr hblock)]
  have hundone := (aes_decrypt_encrypt aes hblock).1
  rw [hok] at hundone
  refine ⟨storeState (aes.encryptState (loadState block)), ?_, length_storeState _, ?_⟩
  · rw [onBlock, if_pos hblock, hok]
    rfl
  · rw [onBlock, if_pos (length_storeState _)]
    exact congrArg (fun r => ExceptT.mk (some r)) hundone

/-- The sizes offered are those of AES. -/
theorem new_ok {keySize : Nat} (hsize : keySize ∈ keySizes) :
    ∃ hvalid, AES.new keySize = .ok ⟨keySize, Vector.replicate 240 0#8, hvalid⟩ := by
  have hvalid : keySize = 16 ∨ keySize = 24 ∨ keySize = 32 := by simpa [keySizes] using hsize
  exact ⟨hvalid, dif_pos hvalid⟩

/-- A key of the right length is accepted, whatever its characters. -/
theorem makeAes_ok {keySize : Nat} (hsize : keySize ∈ keySizes) {keyHex : Bytes} (hkey : keyHex.length = 2 * keySize) :
    ∃ aes, makeAes keySize keyHex = .ok aes := by
  obtain ⟨hvalid, hnew⟩ := new_ok hsize
  have hlen : (fromHex keyHex).length = keySize := by
    rw [length_fromHex, hkey, Nat.mul_div_cancel_left _ (by decide)]
  refine ⟨AES.keyExpansion ⟨keySize, Vector.replicate 240 0#8, hvalid⟩ (fromHex keyHex), ?_⟩
  have hset : AES.setKey ⟨keySize, Vector.replicate 240 0#8, hvalid⟩ (fromHex keyHex) =
      (.ok (), AES.keyExpansion ⟨keySize, Vector.replicate 240 0#8, hvalid⟩ (fromHex keyHex)) :=
    if_neg (not_not.mpr hlen)
  simp [makeAes, hnew, hset, hlen, Bind.bind, Except.bind, pure, Except.pure]

/-- A key of another length is shown as an error, in both modes. -/
theorem output_mismatch {keySize : Nat} (hsize : keySize ∈ keySizes) {keyHex : Bytes} (hkey : keyHex.length / 2 ≠ keySize)
    (encrypting : Bool) (inputStr : Bytes) :
    (process encrypting keySize keyHex inputStr).run.map output =
      some (ascii "[Error] Key hex length mismatch".toList) := by
  obtain ⟨hvalid, hnew⟩ := new_ok hsize
  have hlen : (fromHex keyHex).length ≠ keySize := by rwa [length_fromHex]
  have hmake : makeAes keySize keyHex = .error "Key hex length mismatch" := by
    simp [makeAes, hnew, hlen, Bind.bind, Except.bind, throw, throwThe, MonadExceptOf.throw]
  rw [process, hmake]
  rfl

theorem decrypt_of_encrypt (aes : AES) (s : Bytes) : ∃ shown, encrypt aes s = pure shown ∧ decrypt aes shown = pure s := by
  obtain ⟨-, -, n, hn⟩ := padding_bounds s (show 1 ≤ 16 by decide)
  have hlen : (pad s 16).length = 0 + 16 * n := by
    rw [pad_eq s (by decide) (by decide), List.length_append, List.length_replicate, hn, Nat.zero_add]
  obtain ⟨encrypted, henc, hdec⟩ := BlockLoop.loop_undo (P := fun _ => True) (by decide)
    (fun block hblock _ => onBlock_undone aes block hblock) (fun _ _ => trivial) n 0 hlen []
  have hback : BlockLoop.loop (onBlock aes.decryptBlock) 16 encrypted 0 [] = pure (pad s 16) := hdec [] []
  have hunpad : unpad (pad s 16) = some (true, s) := by
    have h16 := (padding_bounds s (show 1 ≤ 16 by decide)).2.1
    exact unpad_eq_true.mpr (padded_pad s (by decide) (by decide) h16)
  refine ⟨toHex encrypted, ?_, ?_⟩
  · rw [encrypt, henc]
    rfl
  · rw [decrypt, fromHex_toHex, hback]
    simp only [pure_bind, hunpad]
    rfl

/-- For every key size, key and text. -/
theorem process_gives_back {keySize : Nat} (hsize : keySize ∈ keySizes) {keyHex : Bytes} (hkey : keyHex.length = 2 * keySize)
    (s : Bytes) : ∃ shown, process true keySize keyHex s = pure shown ∧ process false keySize keyHex shown = pure s := by
  obtain ⟨aes, haes⟩ := makeAes_ok hsize hkey
  obtain ⟨shown, henc, hdec⟩ := decrypt_of_encrypt aes s
  refine ⟨shown, ?_, ?_⟩
  · rw [process, haes]
    exact henc
  · rw [process, haes]
    exact hdec

/-- The empty text under a key of 24 bytes. -/
theorem process_gives_back_empty : ∃ shown, process true 24 (List.replicate 48 0x66#8) [] = pure shown ∧
    process false 24 (List.replicate 48 0x66#8) shown = pure [] :=
  process_gives_back (by decide) (by decide) []

/-! ## Any text in decrypt mode -/

/-- What is asked of decrypt mode: each block copied lies inside the bytes, and the call ends,
    with an exception or with the decryption of whole blocks after `unpad`. -/
structure Decrypts (keySize : Nat) (keyHex inputStr : Bytes) : Prop where
  in_range : ∀ i < (fromHex inputStr).length, 16 ∣ i → i + 16 ≤ (fromHex inputStr).length
  ends : ∃ result, (process false keySize keyHex inputStr).run = some result ∧ ∀ text, result = .ok text →
    ∃ aes blocks outs unpadded, makeAes keySize keyHex = .ok aes ∧ fromHex inputStr = blocks.flatten ∧
      List.Forall₂ (fun block out => block.length = 16 ∧ aes.decryptBlock block = .ok out) blocks outs ∧
        unpad outs.flatten = some (unpadded, text)

variable {keySize : Nat} {keyHex : Bytes} {aes : AES}

theorem process_decrypt (haes : makeAes keySize keyHex = .ok aes) (inputStr : Bytes) :
    process false keySize keyHex inputStr = decrypt aes inputStr := by
  rw [process, haes]
  rfl

theorem onBlock_decrypts (aes : AES) (block : Bytes) (hblock : block.length = 16) :
    onBlock aes.decryptBlock block = pure (storeState (aes.decryptState (loadState block))) := by
  rw [onBlock, if_pos hblock, AES.decryptBlock, if_neg (not_not.mpr hblock)]
  rfl

/-- Whole blocks are decrypted, and what comes of them is never too short to unpad. -/
theorem decrypts_whole (haes : makeAes keySize keyHex = .ok aes) {inputStr : Bytes}
    (h : 16 ∣ (fromHex inputStr).length) : Decrypts keySize keyHex inputStr := by
  obtain ⟨k, hk⟩ := h
  refine ⟨?_, ?_⟩
  · rintro i hi ⟨j, rfl⟩
    omega
  · obtain ⟨blocks, hsplit, hall, hloop⟩ :=
      BlockLoop.loop_whole (by decide) (onBlock_decrypts aes) k 0 (hk.trans (Nat.zero_add _).symm) []
    have hlen : (blocks.flatMap fun block => storeState (aes.decryptState (loadState block))).length = 16 * blocks.length := by
      simp [List.length_flatMap, Nat.mul_comm]
    obtain ⟨⟨unpadded, text⟩, hunpad⟩ : ∃ r,
        unpad (blocks.flatMap fun block => storeState (aes.decryptState (loadState block))) = some r := by
      rw [← Option.ne_none_iff_exists', ne_eq, unpad_eq_none]
      rintro ⟨v, hne, hshort, h16, -⟩
      have hpos := List.length_pos_iff.mpr hne
      omega
    refine ⟨.ok text, ?_, ?_⟩
    · rw [process_decrypt haes, decrypt, hloop]
      simp only [List.nil_append, pure_bind, hunpad]
      rfl
    · rintro _ htext
      cases htext
      refine ⟨aes, blocks, blocks.map fun block => storeState (aes.decryptState (loadState block)), unpadded, haes, hsplit,
        ?_, ?_⟩
      · rw [List.forall₂_map_right_iff]
        refine List.forall₂_same.mpr ?_
        intro block hm
        exact ⟨hall block hm, by rw [AES.decryptBlock, if_neg (not_not.mpr (hall block hm))]⟩
      · rw [← List.flatMap_def]
        exact hunpad

/-- The copy of a last block that is short reads past the end. -/
theorem decrypt_short (aes : AES) {inputStr : Bytes} (h : ¬ 16 ∣ (fromHex inputStr).length) :
    (decrypt aes inputStr).run = none := by
  have hdiv := Nat.div_add_mod (fromHex inputStr).length 16
  have hpos : 0 < (fromHex inputStr).length % 16 := Nat.pos_of_ne_zero fun hz => h (Nat.dvd_of_mod_eq_zero hz)
  have hlt : (fromHex inputStr).length % 16 < 16 := Nat.mod_lt _ (by decide)
  have hlen : (fromHex inputStr).length = 0 + 16 * ((fromHex inputStr).length / 16) + (fromHex inputStr).length % 16 := by
    omega
  obtain ⟨done, hloop⟩ := BlockLoop.loop_short (onBlock_decrypts aes) hpos hlt _ 0 hlen []
  have hcopy : onBlock aes.decryptBlock ((fromHex inputStr).drop (0 + 16 * ((fromHex inputStr).length / 16))) = ExceptT.mk none := by
    refine if_neg ?_
    rw [List.length_drop]
    omega
  rw [decrypt, hloop, hcopy]
  rfl

/-- For every text: exactly those whose hex pairs make whole blocks. -/
theorem decrypts_iff (haes : makeAes keySize keyHex = .ok aes) (inputStr : Bytes) :
    Decrypts keySize keyHex inputStr ↔ 16 ∣ inputStr.length / 2 := by
  rw [← length_fromHex]
  constructor
  · intro h
    by_contra hnot
    obtain ⟨result, hresult, -⟩ := h.ends
    rw [process_decrypt haes, decrypt_short aes hnot] at hresult
    cases hresult
  · exact decrypts_whole haes

/-- Two digits under a key of zeros. -/
theorem decrypts_iff_byte : ∃ aes, makeAes 16 (List.replicate 32 (chr '0')) = .ok aes ∧
    (Decrypts 16 (List.replicate 32 (chr '0')) (ascii "61".toList) ↔ 16 ∣ (ascii "61".toList).length / 2) := by
  have hkey : (List.replicate 32 (chr '0')).length = 2 * 16 := by decide
  obtain ⟨aes, haes⟩ := makeAes_ok (show 16 ∈ keySizes by decide) hkey
  exact ⟨aes, haes, decrypts_iff haes _⟩

/-- One byte: the copy of 16 reads past it. -/
theorem decrypt_reads_outside : ¬ ∀ keySize keyHex inputStr, (∃ aes, makeAes keySize keyHex = .ok aes) →
    Decrypts keySize keyHex inputStr := by
  intro h
  have hone := h 16 (List.replicate 32 (chr '0')) (ascii "61".toList) (makeAes_ok (by decide) (by decide))
  have hrange := hone.in_range 0 (by decide) (by decide)
  exact absurd hrange (by decide)

end CryptoChat.Crypto.Window
