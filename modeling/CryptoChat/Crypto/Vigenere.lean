/-
  CryptoChat.Crypto.Vigenere — the Vigenere cipher of `classic/Vigenere.cpp`.

  The loop has no value where it takes the key index modulo a key length of 0.

  While the shifts are from 0 to 26 both directions rotate each letter by the shift of the
  letters before it (`encrypt_eq`, `decrypt_eq`). Rotated letters are letters, so both
  directions count alike, and `shifts` follows for every key of letters.
-/

import CryptoChat.Lib.CountedMap
import CryptoChat.Crypto.Caesar

namespace CryptoChat.Crypto.Classic.Vigenere

open CryptoChat.Lib Ctype CountedMap

/-! ## The code -/

/-- `char keyChar = std::toupper(..); int shift = keyChar - 'A';` -/
def shift (keyChar : Byte) : Int := (toupper keyChar).toInt - 65

/-- `m_key[keyIndex % keyLength]` of a key that is not empty. -/
def keyAt (m_key : Bytes) (keyIndex : Nat) : Byte := m_key.getD (keyIndex % m_key.length) 0#8

/-- The loop of both directions, which differ in the new place of a letter. -/
def walk (crypt : Int → Int → Int) (m_key : Bytes) : Nat → Bytes → Option Bytes
  | _, [] => some []
  | keyIndex, ch :: text =>
    if isalpha ch then
      if m_key.length = 0 then none
      else (walk crypt m_key (keyIndex + 1) text).map (letter ch (crypt (place ch) (shift (keyAt m_key keyIndex))) :: ·)
    else (walk crypt m_key keyIndex text).map (ch :: ·)

def encrypt (m_key plaintext : Bytes) : Option Bytes :=
  walk (fun place shift => (place + shift).tmod 26) m_key 0 plaintext

def decrypt (m_key ciphertext : Bytes) : Option Bytes :=
  walk (fun place shift => (place - shift + 26).tmod 26) m_key 0 ciphertext

/-! ## The loop -/

variable {crypt : Int → Int → Int} {m_key : Bytes}

theorem walk_eq (hne : m_key ≠ []) (keyIndex : Nat) (text : Bytes) :
    walk crypt m_key keyIndex text = some (countedMap isalpha
      (fun n ch => letter ch (crypt (place ch) (shift (keyAt m_key n)))) keyIndex text) := by
  have hlen : m_key.length ≠ 0 := fun h => hne (List.eq_nil_of_length_eq_zero h)
  induction text generalizing keyIndex with
  | nil => rfl
  | cons ch text ih =>
    rw [walk, countedMap, ih, ih, if_neg hlen]
    split
    · rfl
    · rfl

theorem getElem?_keyAt (hne : m_key ≠ []) (n : Nat) : m_key[n % m_key.length]? = some (keyAt m_key n) := by
  have hlt : n % m_key.length < m_key.length := Nat.mod_lt _ (List.length_pos_iff.mpr hne)
  rw [keyAt, List.getD_eq_getElem _ _ hlt, List.getElem?_eq_getElem hlt]

theorem keyAt_mem (hne : m_key ≠ []) (n : Nat) : keyAt m_key n ∈ m_key :=
  List.mem_of_getElem? (getElem?_keyAt hne n)

/-! ## Rotations -/

/-- The characters whose shifts stay in the alphabet: the letters, and the one after `Z`. -/
def InRange (m_key : Bytes) : Prop := ∀ c ∈ m_key, 0 ≤ shift c ∧ shift c ≤ 26

theorem encrypt_eq (hne : m_key ≠ []) (hrange : InRange m_key) (text : Bytes) :
    encrypt m_key text = some (countedMap isalpha (fun n => rotate (shift (keyAt m_key n))) 0 text) := by
  rw [encrypt, walk_eq hne]
  refine congrArg some (countedMap_congr ?_ 0 text)
  intro n ch hch
  obtain ⟨h0, -⟩ := place_bounds ch hch
  obtain ⟨hlow, -⟩ := hrange _ (keyAt_mem hne n)
  rw [rotate_letter hch, tmod_eq_val (by omega), Int.cast_add]

theorem decrypt_eq (hne : m_key ≠ []) (hrange : InRange m_key) (text : Bytes) :
    decrypt m_key text = some (countedMap isalpha (fun n => rotate (-shift (keyAt m_key n))) 0 text) := by
  have h26 : ((26 : Int) : ZMod 26) = 0 := by decide
  rw [decrypt, walk_eq hne]
  refine congrArg some (countedMap_congr ?_ 0 text)
  intro n ch hch
  obtain ⟨h0, -⟩ := place_bounds ch hch
  obtain ⟨-, hhigh⟩ := hrange _ (keyAt_mem hne n)
  rw [rotate_letter hch, tmod_eq_val (by omega), Int.cast_add, h26, add_zero, Int.cast_sub, sub_eq_add_neg]

theorem countedMap_cancel {k l : Nat → ZMod 26} (h : ∀ n, l n + k n = 0) (text : Bytes) :
    countedMap isalpha (fun n => rotate (k n)) 0 (countedMap isalpha (fun n => rotate (l n)) 0 text) = text := by
  rw [countedMap_comp fun n ch => isalpha_rotate (l n) ch]
  exact countedMap_id (fun n ch => rotate_cancel (h n) ch) 0 text

/-! ## Keys of letters -/

set_option maxRecDepth 4000 in
theorem shift_letter : ∀ c : Byte, isalpha c → shift c = place c := by
  decide

theorem inRange_letters (hkey : ∀ c ∈ m_key, isalpha c) : InRange m_key := by
  intro c hm
  obtain ⟨h0, h25⟩ := place_bounds c (hkey c hm)
  rw [shift_letter c (hkey c hm)]
  omega

/-- Each letter is rotated by the key letter for the number of letters before it. -/
def Shifted (m_key text result : Bytes) : Prop :=
  result.length = text.length ∧ ∀ (i : Nat) ch, text[i]? = some ch →
    ∃ c, m_key[(text.take i).countP isalpha % m_key.length]? = some c ∧
      result[i]? = some (if isalpha ch then rotate (place c) ch else ch)

structure Shifts (m_key text : Bytes) : Prop where
  forward : ∃ ciphertext, encrypt m_key text = some ciphertext ∧ Shifted m_key text ciphertext ∧
    decrypt m_key ciphertext = some text
  back : ∃ plaintext, decrypt m_key text = some plaintext ∧ encrypt m_key plaintext = some text
  caesar : ∀ c, m_key = [c] → encrypt m_key text = some ((Caesar.new (place c)).encrypt text) ∧
    decrypt m_key text = some ((Caesar.new (place c)).decrypt text)

theorem shifted_encrypt (hne : m_key ≠ []) (hkey : ∀ c ∈ m_key, isalpha c) (text : Bytes) :
    Shifted m_key text (countedMap isalpha (fun n => rotate (shift (keyAt m_key n))) 0 text) := by
  refine ⟨length_countedMap 0 text, ?_⟩
  intro i ch hch
  refine ⟨_, getElem?_keyAt hne _, ?_⟩
  rw [getElem?_countedMap, hch, Option.map_some, Nat.zero_add, shift_letter _ (hkey _ (keyAt_mem hne _))]

theorem countedMap_caesar (k : ZMod 26) (text : Bytes) :
    countedMap isalpha (fun _ => rotate k) 0 text = text.map (rotate k) := by
  apply countedMap_map
  · intro n ch _
    rfl
  · intro ch h
    exact rotate_other h k

theorem shifts_caesar {c : Byte} (hc : isalpha c) (text : Bytes) :
    encrypt [c] text = some ((Caesar.new (place c)).encrypt text) ∧
      decrypt [c] text = some ((Caesar.new (place c)).decrypt text) := by
  have hrange : InRange [c] := inRange_letters fun d hm => List.mem_singleton.mp hm ▸ hc
  have hkey (n : Nat) : shift (keyAt [c] n) = place c := by
    rw [List.mem_singleton.mp (keyAt_mem (List.cons_ne_nil c []) n), shift_letter c hc]
  constructor
  · rw [encrypt_eq (List.cons_ne_nil c []) hrange, Caesar.encrypt_eq, Caesar.m_shift_new]
    simp only [hkey, countedMap_caesar]
  · rw [decrypt_eq (List.cons_ne_nil c []) hrange, Caesar.decrypt_eq, Caesar.m_shift_new]
    simp only [hkey, countedMap_caesar]

/-- For every key of letters and every text. -/
theorem shifts (hne : m_key ≠ []) (hkey : ∀ c ∈ m_key, isalpha c) (text : Bytes) : Shifts m_key text := by
  have hrange := inRange_letters hkey
  refine ⟨⟨_, encrypt_eq hne hrange text, shifted_encrypt hne hkey text, ?_⟩, ⟨_, decrypt_eq hne hrange text, ?_⟩, ?_⟩
  · rw [decrypt_eq hne hrange]
    exact congrArg some (countedMap_cancel (fun n => add_neg_cancel _) text)
  · rw [encrypt_eq hne hrange]
    exact congrArg some (countedMap_cancel (fun n => neg_add_cancel _) text)
  · rintro c rfl
    exact shifts_caesar (hkey c List.mem_cons_self) text

/-- The key and the text of the tests. -/
theorem shifts_key : Shifts (ascii "KEY".toList) (ascii "A A".toList) :=
  shifts (by decide) (by decide) _

end CryptoChat.Crypto.Classic.Vigenere
