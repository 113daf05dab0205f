/-
  CryptoChat.Crypto.Playfair — the Playfair cipher of `classic/Playfair.cpp`.

  A string is its bytes, and `isalpha` and `toupper` are those of the C locale. Where
  `findPosition` finds nothing (`{-1, -1}`) the code goes on to read outside the matrix,
  so the texts are then `none`.

  - `square_generateKeyMatrix`: every key gives a square with each letter in one cell.
  - `digraphs_some`: on any square the digraphs at one shift undo those at the other way.
  - `playfair_decrypts`: for every key and text.
-/

import CryptoChat.Lib.Bytes
import CryptoChat.Lib.Ctype
import Mathlib

namespace CryptoChat.Crypto.Playfair

open CryptoChat.Lib Ctype

/-! ## Letters -/

/-- What the loops over a string do with a character: upper case, and `J` as `I`. -/
def adjust (ch : Byte) : Option Byte :=
  if isalpha ch then
    let ch := toupper ch
    some (if ch = chr 'J' then chr 'I' else ch)
  else none

/-- `A` to `Z`, without `J`. -/
def letters : Bytes := ((List.range 26).map fun k => chr 'A' + BitVec.ofNat 8 k).filter (· ≠ chr 'J')

theorem length_letters : letters.length = 25 := by decide

theorem nodup_letters : letters.Nodup := by decide

theorem adjust_mem {ch letter : Byte} (h : adjust ch = some letter) : letter ∈ letters := by
  have hall : ∀ ch : Byte, (adjust ch).all (· ∈ letters) = true := by decide
  have hch := hall ch
  rw [h] at hch
  simpa using hch

theorem adjust_letter {letter : Byte} (h : letter ∈ letters) : adjust letter = some letter := by
  have hall : ∀ letter ∈ letters, adjust letter = some letter := by decide
  exact hall letter h

/-- A string of letters is left as it is. -/
theorem filterMap_adjust {text : Bytes} (h : ∀ ch ∈ text, ch ∈ letters) : text.filterMap adjust = text := by
  induction text with
  | nil => rfl
  | cons ch text ih =>
    rw [List.filterMap_cons, adjust_letter (h ch List.mem_cons_self)]
    exact congrArg (ch :: ·) (ih fun other hm => h other (List.mem_cons_of_mem _ hm))

theorem mem_filterMap_adjust {text : Bytes} {letter : Byte} (h : letter ∈ text.filterMap adjust) : letter ∈ letters := by
  obtain ⟨ch, -, hadjust⟩ := List.mem_filterMap.mp h
  exact adjust_mem hadjust

/-! ## The key matrix -/

/-- `std::vector<std::vector<char>>` of 5 rows and columns. -/
abbrev Matrix := Vector (Vector Byte 5) 5

/-- A row and a column. -/
abbrev Position := Fin 5 × Fin 5

def cell (matrix : Matrix) (p : Position) : Byte := matrix[p.1][p.2]

structure KeyState where
  adjustedKey : Bytes
  used : List Bool

def slot (ch : Byte) : Nat := (ch - chr 'A').toNat

def useLetter (k : KeyState) (ch : Byte) : KeyState :=
  if k.used.getD (slot ch) false then k else ⟨k.adjustedKey ++ [ch], k.used.set (slot ch) true⟩

/-- The letters of the key, then those left. -/
def keyState (key : Bytes) : KeyState :=
  letters.foldl useLetter ((key.filterMap adjust).foldl useLetter ⟨[], List.replicate 26 false⟩)

def generateKeyMatrix (key : Bytes) : Matrix :=
  .ofFn fun i => .ofFn fun j => (keyState key).adjustedKey.getD (i.val * 5 + j.val) 0#8

def positions : List Position := (List.finRange 5).flatMap fun i => (List.finRange 5).map fun j => (i, j)

def findPosition (matrix : Matrix) (ch : Byte) : Option Position := positions.find? fun p => cell matrix p == ch

/-- `used` marks the letters of `adjustedKey`, which has each once. -/
structure KeyInv (k : KeyState) : Prop where
  length : k.used.length = 26
  mem : ∀ ch ∈ k.adjustedKey, ch ∈ letters
  nodup : k.adjustedKey.Nodup
  used : ∀ ch ∈ letters, k.used.getD (slot ch) false = true ↔ ch ∈ k.adjustedKey

theorem slot_lt {ch : Byte} (h : ch ∈ letters) : slot ch < 26 := by
  have hall : ∀ ch ∈ letters, slot ch < 26 := by decide
  exact hall ch h

theorem slot_inj {a b : Byte} (h : slot a = slot b) : a = b :=
  sub_left_injective (BitVec.eq_of_toNat_eq h)

theorem keyInv_useLetter {k : KeyState} (hk : KeyInv k) {ch : Byte} (hch : ch ∈ letters) :
    KeyInv (useLetter k ch) ∧ ∀ other, other ∈ (useLetter k ch).adjustedKey ↔ other ∈ k.adjustedKey ∨ other = ch := by
  unfold useLetter
  split
  · rename_i hused
    refine ⟨hk, ?_⟩
    intro other
    constructor
    · exact .inl
    · rintro (h | rfl)
      · exact h
      · exact (hk.used _ hch).mp hused
  · rename_i hunused
    have hnew : ch ∉ k.adjustedKey := fun h => hunused ((hk.used ch hch).mpr h)
    refine ⟨⟨?_, ?_, ?_, ?_⟩, ?_⟩
    · rw [List.length_set, hk.length]
    · intro other h
      rcases List.mem_append.mp h with h | h
      · exact hk.mem other h
      · exact List.mem_singleton.mp h ▸ hch
    · rw [List.nodup_append]
      refine ⟨hk.nodup, List.nodup_singleton ch, ?_⟩
      intro a ha b hb hab
      exact hnew (List.mem_singleton.mp hb ▸ hab ▸ ha)
    · intro other hother
      have hlen : slot ch < k.used.length := hk.length ▸ slot_lt hch
      rw [List.mem_append, List.mem_singleton, ← hk.used other hother, List.getD_eq_getElem?_getD,
        List.getD_eq_getElem?_getD, List.getElem?_set]
      by_cases heq : slot ch = slot other
      · simp [slot_inj heq, ← heq, hlen]
      · have hne : other ≠ ch := by
          rintro rfl
          exact heq rfl
        rw [if_neg heq]
        simp [hne]
    · intro other
      rw [List.mem_append, List.mem_singleton]

theorem keyInv_foldl {text : Bytes} (htext : ∀ ch ∈ text, ch ∈ letters) {k : KeyState} (hk : KeyInv k) :
    KeyInv (text.foldl useLetter k) ∧
      ∀ ch, ch ∈ (text.foldl useLetter k).adjustedKey ↔ ch ∈ k.adjustedKey ∨ ch ∈ text := by
  induction text generalizing k with
  | nil => simpa using hk
  | cons ch text ih =>
    obtain ⟨hk', hmem'⟩ := keyInv_useLetter hk (htext ch List.mem_cons_self)
    obtain ⟨hinv, hmem⟩ := ih (fun other h => htext other (List.mem_cons_of_mem _ h)) hk'
    refine ⟨hinv, ?_⟩
    intro other
    rw [List.foldl_cons, hmem, hmem', List.mem_cons, or_assoc]

/-- The adjusted key is the 25 letters in some order. -/
theorem perm_adjustedKey (key : Bytes) : (keyState key).adjustedKey.Perm letters := by
  have hstart : KeyInv ⟨[], List.replicate 26 false⟩ := by
    refine ⟨rfl, by simp, List.nodup_nil, ?_⟩
    intro ch hch
    rw [List.getD_eq_getElem?_getD, List.getElem?_replicate, if_pos (slot_lt hch)]
    simp
  have hletters : ∀ ch ∈ key.filterMap adjust, ch ∈ letters := fun ch h => mem_filterMap_adjust h
  obtain ⟨hkey, -⟩ := keyInv_foldl hletters hstart
  obtain ⟨hinv, hmem⟩ := keyInv_foldl (fun ch h => h) hkey
  refine (List.perm_ext_iff_of_nodup hinv.nodup nodup_letters).mpr ?_
  intro ch
  constructor
  · exact hinv.mem ch
  · intro h
    exact (hmem ch).mpr (.inr h)

/-- Every cell has a letter, and every letter has one cell. -/
structure Square (matrix : Matrix) : Prop where
  mem : ∀ p, cell matrix p ∈ letters
  inj : Function.Injective (cell matrix)
  onto : ∀ ch ∈ letters, ∃ p, cell matrix p = ch

/-- The number of a cell, row by row. -/
def index (p : Position) : Nat := p.1.val * 5 + p.2.val

theorem index_lt (p : Position) : index p < 25 := by
  unfold index
  omega

theorem index_inj {p q : Position} (h : index p = index q) : p = q := by
  unfold index at h
  apply Prod.ext
  · apply Fin.ext
    omega
  · apply Fin.ext
    omega

theorem cell_generateKeyMatrix (key : Bytes) (p : Position) :
    cell (generateKeyMatrix key) p = (keyState key).adjustedKey.getD (index p) 0#8 := by
  simp [cell, generateKeyMatrix, index]

theorem square_generateKeyMatrix (key : Bytes) : Square (generateKeyMatrix key) := by
  have hperm := perm_adjustedKey key
  have hlen : (keyState key).adjustedKey.length = 25 := hperm.length_eq.trans length_letters
  have hnodup : (keyState key).adjustedKey.Nodup := hperm.nodup_iff.mpr nodup_letters
  have hcell (p : Position) : (keyState key).adjustedKey[index p]? = some (cell (generateKeyMatrix key) p) := by
    have hlt : index p < (keyState key).adjustedKey.length := hlen ▸ index_lt p
    rw [cell_generateKeyMatrix, List.getD_eq_getElem?_getD, List.getElem?_eq_getElem hlt]
    rfl
  refine ⟨?_, ?_, ?_⟩
  · intro p
    exact hperm.mem_iff.mp (List.mem_of_getElem? (hcell p))
  · intro p q h
    have hq := h ▸ hcell p
    have hlt : index p < (keyState key).adjustedKey.length := hlen ▸ index_lt p
    exact index_inj ((List.getElem?_inj hlt hnodup).mp (hq.trans (hcell q).symm))
  · intro ch hch
    obtain ⟨n, hn⟩ := List.getElem?_of_mem (hperm.mem_iff.mpr hch)
    have hlt : n < 25 := hlen ▸ (List.getElem?_eq_some_iff.mp hn).1
    have hindex : index (⟨n / 5, by omega⟩, ⟨n % 5, by omega⟩) = n := Nat.div_add_mod' n 5
    refine ⟨(⟨n / 5, by omega⟩, ⟨n % 5, by omega⟩), ?_⟩
    have hat := hcell (⟨n / 5, by omega⟩, ⟨n % 5, by omega⟩)
    rw [hindex, hn] at hat
    exact (Option.some.inj hat).symm

theorem findPosition_cell {matrix : Matrix} (hsq : Square matrix) (p : Position) :
    findPosition matrix (cell matrix p) = some p := by
  have hmem : p ∈ positions := by simp [positions]
  have hsome : (findPosition matrix (cell matrix p)).isSome := by
    rw [findPosition, List.find?_isSome]
    exact ⟨p, hmem, by simp⟩
  obtain ⟨q, hq⟩ := Option.isSome_iff_exists.mp hsome
  have hcell : cell matrix q = cell matrix p := by simpa using List.find?_some hq
  rw [hq, hsq.inj hcell]

/-! ## The plaintext -/

/-- The second loop of `preprocessPlaintext`: an `X` between equal letters of a digraph. -/
def separate : Bytes → Bytes
  | [] => []
  | [a] => [a]
  | a :: b :: rest => if a = b then a :: chr 'X' :: separate (b :: rest) else a :: b :: separate rest

/-- An `X` after a string of odd length. -/
def padX (text : Bytes) : Bytes := if text.length % 2 ≠ 0 then text ++ [chr 'X'] else text

def preprocessPlaintext (plaintext : Bytes) : Bytes := padX (separate (plaintext.filterMap adjust))

theorem mem_separate {text : Bytes} {ch : Byte} (h : ch ∈ separate text) : ch ∈ text ∨ ch = chr 'X' := by
  fun_induction separate text with
  | case1 => exact .inl h
  | case2 a => exact .inl h
  | case3 a rest ih =>
    rcases List.mem_cons.mp h with rfl | h
    · exact .inl List.mem_cons_self
    · rcases List.mem_cons.mp h with rfl | h
      · exact .inr rfl
      · exact (ih h).imp_left (List.mem_cons_of_mem _)
  | case4 a b rest hne ih =>
    rcases List.mem_cons.mp h with rfl | h
    · exact .inl List.mem_cons_self
    · rcases List.mem_cons.mp h with rfl | h
      · exact .inl (List.mem_cons_of_mem _ List.mem_cons_self)
      · exact (ih h).imp_left fun hm => List.mem_cons_of_mem _ (List.mem_cons_of_mem _ hm)

theorem x_mem : chr 'X' ∈ letters := by decide

theorem mem_padX {text : Bytes} (h : ∀ ch ∈ text, ch ∈ letters) {ch : Byte} (hm : ch ∈ padX text) : ch ∈ letters := by
  unfold padX at hm
  split at hm
  · rcases List.mem_append.mp hm with hm | hm
    · exact h ch hm
    · exact List.mem_singleton.mp hm ▸ x_mem
  · exact h ch hm

theorem even_padX (text : Bytes) : (padX text).length % 2 = 0 := by
  unfold padX
  split
  · rw [List.length_append, List.length_singleton]
    omega
  · omega

theorem mem_preprocessPlaintext {plaintext : Bytes} {ch : Byte} (h : ch ∈ preprocessPlaintext plaintext) :
    ch ∈ letters := by
  refine mem_padX ?_ h
  intro other hm
  rcases mem_separate hm with hm | rfl
  · exact mem_filterMap_adjust hm
  · exact x_mem

/-! ## Digraphs -/

/-- The cells of a digraph after the cells `p` and `q`. -/
def move (shift : Fin 5) (p q : Position) : Position × Position :=
  if p.1 = q.1 then ((p.1, p.2 + shift), (q.1, q.2 + shift))  -- Same row
  else if p.2 = q.2 then ((p.1 + shift, p.2), (q.1 + shift, q.2))  -- Same column
  else ((p.1, q.2), (q.1, p.2))  -- Rectangle swap

def digraph (matrix : Matrix) (shift : Fin 5) (first second : Byte) : Option Bytes := do
  let p ← findPosition matrix first
  let q ← findPosition matrix second
  let (p, q) := move shift p q
  return [cell matrix p, cell matrix q]

/-- The loop over the pairs; `last` is what it does with a letter that has no second one. -/
def digraphs (matrix : Matrix) (shift : Fin 5) (last : Option Bytes) : Bytes → Option Bytes
  | [] => some []
  | [_] => last
  | first :: second :: text => do
    let out ← digraph matrix shift first second
    let rest ← digraphs matrix shift last text
    return out ++ rest

/-- The loop would read the terminator of `adjustedText`, which no cell has. -/
def encrypt (key plaintext : Bytes) : Option Bytes :=
  digraphs (generateKeyMatrix key) 1 none (preprocessPlaintext plaintext)

/-- A trailing `X` removed. -/
def dropX (plaintext : Bytes) : Bytes :=
  if plaintext.getLast? = some (chr 'X') then plaintext.dropLast else plaintext

def decrypt (key ciphertext : Bytes) : Option Bytes :=
  let filtered := padX (ciphertext.filterMap adjust)
  (digraphs (generateKeyMatrix key) 4 (some []) filtered).map dropX

/-- The same shift the other way moves back, in each of the three cases. -/
theorem move_back (shift : Fin 5) (p q : Position) :
    move (-shift) (move shift p q).1 (move shift p q).2 = (p, q) := by
  by_cases hrow : p.1 = q.1
  · have hout : move shift p q = ((p.1, p.2 + shift), (q.1, q.2 + shift)) := if_pos hrow
    rw [hout, move, if_pos hrow]
    simp
  · by_cases hcol : p.2 = q.2
    · have hout : move shift p q = ((p.1 + shift, p.2), (q.1 + shift, q.2)) := by rw [move, if_neg hrow, if_pos hcol]
      have hrow' : p.1 + shift ≠ q.1 + shift := fun h => hrow (add_right_cancel h)
      rw [hout, move, if_neg hrow', if_pos hcol]
      simp
    · have hout : move shift p q = ((p.1, q.2), (q.1, p.2)) := by rw [move, if_neg hrow, if_neg hcol]
      rw [hout, move, if_neg hrow, if_neg (Ne.symm hcol)]

theorem digraph_cells {matrix : Matrix} (hsq : Square matrix) (shift : Fin 5) (p q : Position) :
    digraph matrix shift (cell matrix p) (cell matrix q) =
      some [cell matrix (move shift p q).1, cell matrix (move shift p q).2] := by
  rw [digraph, findPosition_cell hsq, findPosition_cell hsq]
  rfl

/-- Letters are found, so every string of letters of even length has its digraphs. -/
theorem digraphs_some {matrix : Matrix} (hsq : Square matrix) (shift : Fin 5) (last : Option Bytes) {text : Bytes}
    (heven : text.length % 2 = 0) (htext : ∀ ch ∈ text, ch ∈ letters) :
    ∃ out, digraphs matrix shift last text = some out ∧ out.length = text.length ∧ (∀ ch ∈ out, ch ∈ letters) ∧
      ∀ last', digraphs matrix (-shift) last' out = some text := by
  fun_induction digraphs matrix shift last text with
  | case1 => exact ⟨[], rfl, rfl, htext, fun _ => rfl⟩
  | case2 a => cases heven
  | case3 first second text ih =>
    obtain ⟨p, rfl⟩ := hsq.onto first (htext first List.mem_cons_self)
    obtain ⟨q, rfl⟩ := hsq.onto second (htext second (List.mem_cons_of_mem _ List.mem_cons_self))
    have hrest : ∀ ch ∈ text, ch ∈ letters := fun ch h => htext ch (List.mem_cons_of_mem _ (List.mem_cons_of_mem _ h))
    have heven' : text.length % 2 = 0 := by
      rw [List.length_cons, List.length_cons] at heven
      omega
    obtain ⟨rest, hsome, hlen, hmem, hback⟩ := ih heven' hrest
    refine ⟨cell matrix (move shift p q).1 :: cell matrix (move shift p q).2 :: rest, ?_, ?_, ?_, ?_⟩
    · rw [digraph_cells hsq, hsome]
      rfl
    · simp [hlen]
    · intro ch h
      rcases List.mem_cons.mp h with rfl | h
      · exact hsq.mem _
      · rcases List.mem_cons.mp h with rfl | h
        · exact hsq.mem _
        · exact hmem ch h
    · intro last'
      rw [digraphs, digraph_cells hsq, move_back, hback]
      rfl

/-! ## There and back -/

/-- `findPosition` finds every letter of every ciphertext. -/
theorem decrypt_total (key ciphertext : Bytes) : decrypt key ciphertext ≠ none := by
  obtain ⟨out, hout, -, -, -⟩ := digraphs_some (square_generateKeyMatrix key) 4 (some [])
    (even_padX (ciphertext.filterMap adjust)) fun ch h => mem_padX (fun other hm => mem_filterMap_adjust hm) h
  simp [decrypt, hout]

theorem decrypt_letters {key ciphertext plaintext : Bytes} (heven : ciphertext.length % 2 = 0)
    (hletters : ∀ ch ∈ ciphertext, ch ∈ letters)
    (hback : digraphs (generateKeyMatrix key) 4 (some []) ciphertext = some plaintext) :
    decrypt key ciphertext = some (dropX plaintext) := by
  have hpad : padX ciphertext = ciphertext := if_neg (by omega)
  rw [decrypt, filterMap_adjust hletters, hpad, hback]
  rfl

/-- The ciphertext, and what it decrypts to. -/
theorem decrypt_of_encrypt (key plaintext : Bytes) :
    ∃ ciphertext, encrypt key plaintext = some ciphertext ∧ 2 ∣ ciphertext.length ∧ (∀ ch ∈ ciphertext, ch ∈ letters) ∧
      decrypt key ciphertext = some (dropX (preprocessPlaintext plaintext)) := by
  have heven := even_padX (separate (plaintext.filterMap adjust))
  obtain ⟨ciphertext, henc, hlen, hmem, hback⟩ :=
    digraphs_some (square_generateKeyMatrix key) 1 none heven fun ch h => mem_preprocessPlaintext h
  have hlen2 : ciphertext.length % 2 = 0 := hlen ▸ heven
  exact ⟨ciphertext, henc, Nat.dvd_of_mod_eq_zero hlen2, hmem, decrypt_letters hlen2 hmem (hback (some []))⟩

/-- For every key and text: the square, the ciphertext and what it decrypts to. -/
theorem playfair_decrypts (key plaintext : Bytes) :
    (∀ ch ∈ letters, ∃! p, cell (generateKeyMatrix key) p = ch) ∧
      (∀ ciphertext, decrypt key ciphertext ≠ none) ∧
      ∃ ciphertext, encrypt key plaintext = some ciphertext ∧ 2 ∣ ciphertext.length ∧
        (∀ ch ∈ ciphertext, ch ∈ letters) ∧
        decrypt key ciphertext =
          some (if (preprocessPlaintext plaintext).getLast? = some (chr 'X') then (preprocessPlaintext plaintext).dropLast
            else preprocessPlaintext plaintext) := by
  have hsq := square_generateKeyMatrix key
  refine ⟨?_, decrypt_total key, decrypt_of_encrypt key plaintext⟩
  intro ch hch
  obtain ⟨p, hp⟩ := hsq.onto ch hch
  exact ⟨p, hp, fun q hq => hsq.inj (hq.trans hp.symm)⟩

end CryptoChat.Crypto.Playfair
