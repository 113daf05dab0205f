/-
  CryptoChat.Crypto.PlayfairText — what `preprocessPlaintext` makes of a text, and which
  texts come back from `encrypt` and `decrypt`.

  The digraphs of the result hold two letters each, except that an `X` set apart from an
  `X`, or added to a last `X`, makes the digraph `XX`. Two equal letters always end at the
  start of a digraph (the second is either left over or set apart), so whether a letter
  starts one depends only on its distance from the last doubled letter: `Clash` says so
  without the loop, and `prepared_iff` that the digraphs are distinct exactly without one.

  `decrypt` takes a last `X` off, added or not (`decrypts_prepared`).
-/

import CryptoChat.Crypto.Playfair

namespace CryptoChat.Crypto.Playfair

open CryptoChat.Lib Ctype

/-! ## What is asked of the prepared text -/

/-- `result` is `text` with an `X` inserted here and there. -/
inductive Inserted : Bytes → Bytes → Prop where
  | nil : Inserted [] []
  | keep (ch : Byte) {text result : Bytes} : Inserted text result → Inserted (ch :: text) (ch :: result)
  | insert {text result : Bytes} : Inserted text result → Inserted text (chr 'X' :: result)

/-- No digraph holds the same letter twice. -/
def Distinct (text : Bytes) : Prop :=
  ∀ (i : Nat) a b, text[2 * i]? = some a → text[2 * i + 1]? = some b → a ≠ b

/-- Letters only, upper case, `J` as `I`. -/
def normalised (plaintext : Bytes) : Bytes := plaintext.filterMap adjust

structure Prepared (plaintext result : Bytes) : Prop where
  even : 2 ∣ result.length
  mem : ∀ ch ∈ result, ch ∈ letters
  distinct : Distinct result
  inserted : Inserted (normalised plaintext) result

/-- An `X` before an `X` or at the end, at an even distance from the start or from the last
    letter before it that doubles its predecessor. -/
def Clash (text : Bytes) : Prop :=
  ∃ doubled between rest, text = doubled ++ between ++ chr 'X' :: rest ∧ (∀ b ∈ rest.head?, b = chr 'X') ∧
    2 ∣ between.length ∧ (between ++ [chr 'X']).IsChain (· ≠ ·) ∧
      ∀ a ∈ doubled.getLast?, (between ++ [chr 'X']).head? = some a

/-! ## Insertions -/

theorem Inserted.snoc {text result : Bytes} (h : Inserted text result) : Inserted text (result ++ [chr 'X']) := by
  induction h with
  | nil => exact .insert .nil
  | keep ch _ ih => exact .keep ch ih
  | insert _ ih => exact .insert ih

theorem inserted_separate (text : Bytes) : Inserted text (separate text) := by
  fun_induction separate text with
  | case1 => exact .nil
  | case2 a => exact .keep a .nil
  | case3 a rest ih => exact .keep a (.insert ih)
  | case4 a b rest _ ih => exact .keep a (.keep b ih)

theorem inserted_padX {text result : Bytes} (h : Inserted text result) : Inserted text (padX result) := by
  unfold padX
  split
  · exact h.snoc
  · exact h

/-! ## Digraphs -/

theorem distinct_nil : Distinct [] := by
  intro i a b ha
  cases ha

theorem distinct_cons {a b : Byte} {text : Bytes} : Distinct (a :: b :: text) ↔ a ≠ b ∧ Distinct text := by
  constructor
  · intro h
    refine ⟨h 0 a b rfl rfl, ?_⟩
    intro i
    exact h (i + 1)
  · intro hboth i c d hc hd
    obtain ⟨hne, h⟩ := hboth
    cases i with
    | zero =>
      cases hc
      cases hd
      exact hne
    | succ i => exact h i c d hc hd

theorem padX_cons (a b : Byte) (text : Bytes) : padX (a :: b :: text) = a :: b :: padX text := by
  unfold padX
  have hparity : (a :: b :: text).length % 2 = text.length % 2 := by
    rw [List.length_cons, List.length_cons]
    omega
  rw [hparity]
  split
  · rfl
  · rfl

/-! ## Clashes -/

theorem not_clash_nil : ¬ Clash [] := by
  intro hclash
  obtain ⟨doubled, between, rest, h, -⟩ := hclash
  simp at h

theorem clash_singleton {a : Byte} : Clash [a] ↔ a = chr 'X' := by
  constructor
  · intro hclash
    obtain ⟨doubled, between, rest, h, -⟩ := hclash
    have hmem : chr 'X' ∈ [a] := by simp [h]
    exact (List.mem_singleton.mp hmem).symm
  · rintro rfl
    exact ⟨[], [], [], rfl, by simp, by simp, by simp, by simp⟩

theorem head_between {a : Byte} {rest between tail : Bytes} (h : a :: rest = between ++ chr 'X' :: tail) :
    (between ++ [chr 'X']).head? = some a := by
  cases between with
  | nil => exact congrArg some (List.cons.inj h).1.symm
  | cons b between => exact congrArg some (List.cons.inj h).1.symm

/-- A letter before its equal clashes when it is an `X`; the other starts a digraph anyway. -/
theorem clash_cons_self {a : Byte} {rest : Bytes} : Clash (a :: a :: rest) ↔ a = chr 'X' ∨ Clash (a :: rest) := by
  constructor
  · intro hclash
    obtain ⟨doubled, between, tail, h, hx, heven, hchain, hlast⟩ := hclash
    cases doubled with
    | nil =>
      match between, h, heven, hchain with
      | [], h, _, _ => exact .inl (List.cons.inj h).1
      | [_], _, heven, _ => simp at heven
      | b :: c :: between, h, _, hchain =>
        obtain ⟨rfl, rfl, -⟩ : a = b ∧ a = c ∧ rest = between ++ chr 'X' :: tail := by simpa using h
        exact absurd rfl (List.isChain_cons_cons.mp hchain).1
    | cons d doubled =>
      have htail : a :: rest = doubled ++ between ++ chr 'X' :: tail := (List.cons.inj h).2
      refine .inr ⟨doubled, between, tail, htail, hx, heven, hchain, ?_⟩
      intro b hb
      refine hlast b ?_
      cases doubled with
      | nil => cases hb
      | cons e doubled => exact hb
  · intro hboth
    rcases hboth with rfl | ⟨doubled, between, tail, h, hx, heven, hchain, hlast⟩
    · exact ⟨[], [], chr 'X' :: rest, rfl, by simp, by simp, by simp, by simp⟩
    · refine ⟨a :: doubled, between, tail, congrArg (a :: ·) h, hx, heven, hchain, ?_⟩
      intro b hb
      cases doubled with
      | nil =>
        cases hb
        exact head_between h
      | cons e doubled => exact hlast b hb

/-- Two letters that differ make a digraph. -/
theorem clash_cons_ne {a b : Byte} (hne : a ≠ b) {rest : Bytes} : Clash (a :: b :: rest) ↔ Clash rest := by
  constructor
  · intro hclash
    obtain ⟨doubled, between, tail, h, hx, heven, hchain, hlast⟩ := hclash
    match doubled, h, hlast with
    | [], h, _ =>
      match between, h, heven, hchain with
      | [], h, _, _ =>
        obtain ⟨rfl, rfl⟩ := List.cons.inj h
        exact absurd (hx b rfl).symm hne
      | [_], _, heven, _ => simp at heven
      | c :: d :: between, h, heven, hchain =>
        obtain ⟨rfl, rfl, rfl⟩ : a = c ∧ b = d ∧ rest = between ++ chr 'X' :: tail := by simpa using h
        refine ⟨[], between, tail, rfl, hx, ?_, ?_, by simp⟩
        · simpa [Nat.dvd_add_left] using heven
        · exact (List.isChain_cons_cons.mp hchain).2.tail
    | [c], h, hlast =>
      have hc : a = c := (List.cons.inj h).1
      have htail : b :: rest = between ++ chr 'X' :: tail := (List.cons.inj h).2
      have hb := hlast c rfl
      rw [head_between htail, Option.some.injEq] at hb
      exact absurd (hc.trans hb.symm) hne
    | c :: d :: doubled, h, hlast =>
      have htail : rest = doubled ++ between ++ chr 'X' :: tail := (List.cons.inj (List.cons.inj h).2).2
      refine ⟨doubled, between, tail, htail, hx, heven, hchain, ?_⟩
      intro e he
      refine hlast e ?_
      cases doubled with
      | nil => cases he
      | cons f doubled => exact he
  · intro hclash
    obtain ⟨doubled, between, tail, rfl, hx, heven, hchain, hlast⟩ := hclash
    cases doubled with
    | cons e doubled => exact ⟨a :: b :: e :: doubled, between, tail, rfl, hx, heven, hchain, hlast⟩
    | nil =>
      by_cases hb : (between ++ [chr 'X']).head? = some b
      · refine ⟨[a, b], between, tail, rfl, hx, heven, hchain, ?_⟩
        intro e he
        cases he
        exact hb
      · refine ⟨[], a :: b :: between, tail, rfl, hx, ?_, ?_, by simp⟩
        · simpa [Nat.dvd_add_left] using heven
        · rw [List.cons_append, List.cons_append, List.isChain_cons_cons, List.isChain_cons]
          refine ⟨hne, ?_, hchain⟩
          rintro c hc rfl
          exact hb hc

/-- The digraphs made of a text are distinct exactly without a clash. -/
theorem distinct_iff (text : Bytes) : Distinct (padX (separate text)) ↔ ¬ Clash text := by
  fun_induction separate text with
  | case1 => exact iff_of_true distinct_nil not_clash_nil
  | case2 a =>
    have hpad : padX [a] = [a, chr 'X'] := rfl
    rw [hpad, distinct_cons, clash_singleton]
    exact ⟨fun h => h.1, fun h => ⟨h, distinct_nil⟩⟩
  | case3 a rest ih => rw [padX_cons, distinct_cons, ih, clash_cons_self, not_or]
  | case4 a b rest hne ih =>
    rw [padX_cons, distinct_cons, ih, clash_cons_ne hne]
    exact ⟨fun h => h.2, fun h => ⟨hne, h⟩⟩

/-- For every plaintext. -/
theorem prepared_iff (plaintext : Bytes) :
    Prepared plaintext (preprocessPlaintext plaintext) ↔ ¬ Clash (normalised plaintext) := by
  constructor
  · intro h
    exact (distinct_iff _).mp h.distinct
  · intro h
    exact ⟨Nat.dvd_of_mod_eq_zero (even_padX _), fun ch hm => mem_preprocessPlaintext hm, (distinct_iff _).mpr h,
      inserted_padX (inserted_separate _)⟩

/-- The text `X` becomes the digraph `XX`. -/
theorem prepared_x : ¬ ∀ plaintext, Prepared plaintext (preprocessPlaintext plaintext) := by
  intro h
  exact (h [chr 'X']).distinct 0 (chr 'X') (chr 'X') rfl rfl rfl

/-! ## There and back -/

/-- A text that is prepared already comes back, less a last `X`. -/
theorem decrypts_prepared (key : Bytes) {text : Bytes} (hfix : preprocessPlaintext text = text) :
    ∃ ciphertext, encrypt key text = some ciphertext ∧
      (text.getLast? ≠ some (chr 'X') → decrypt key ciphertext = some text) ∧
      (text.getLast? = some (chr 'X') → decrypt key ciphertext = some text.dropLast) := by
  obtain ⟨ciphertext, henc, -, -, hdec⟩ := decrypt_of_encrypt key text
  rw [hfix] at hdec
  refine ⟨ciphertext, henc, ?_, ?_⟩
  · intro hlast
    rw [hdec, dropX, if_neg hlast]
  · intro hlast
    rw [hdec, dropX, if_pos hlast]

/-- The message of the tests' square, `KE`. -/
theorem decrypts_prepared_ke : ∃ ciphertext, encrypt (ascii "KEYWORD".toList) (ascii "KE".toList) = some ciphertext ∧
    ((ascii "KE".toList).getLast? ≠ some (chr 'X') →
      decrypt (ascii "KEYWORD".toList) ciphertext = some (ascii "KE".toList)) ∧
    ((ascii "KE".toList).getLast? = some (chr 'X') →
      decrypt (ascii "KEYWORD".toList) ciphertext = some (ascii "KE".toList).dropLast) :=
  decrypts_prepared _ rfl

/-- `AX` loses its `X` under every key. -/
theorem decrypts_prepared_ax : ¬ ∀ key text, preprocessPlaintext text = text → Distinct text →
    (encrypt key text).bind (decrypt key) = some text := by
  intro h
  have hdistinct : Distinct [chr 'A', chr 'X'] := distinct_cons.mpr ⟨by decide, distinct_nil⟩
  have hback := h [] [chr 'A', chr 'X'] rfl hdistinct
  obtain ⟨ciphertext, henc, -, -, hdec⟩ := decrypt_of_encrypt [] [chr 'A', chr 'X']
  rw [henc, Option.bind_some, hdec] at hback
  exact absurd hback (by decide)

end CryptoChat.Crypto.Playfair
