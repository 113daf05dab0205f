/-
  CryptoChat.Lib.BlockLoop — the loop of a program that takes a string in blocks of `n` and
  appends what it makes of each: `for (i = 0; i < size; i += n) out += f(block at i)`. The
  last block may be shorter.

  `loop_total`: a function that succeeds on every block succeeds in the loop. `loop_whole`:
  on whole blocks that succeed the loop is a map over the blocks;
  `loop_short`: a last block that is short is left to the function. `loop_undo`: where one
  function undoes another on whole blocks, its loop undoes the other's. `loop_fill`: a
  function that fills up a short block makes of a string what it makes of the string
  filled up.
-/

import Mathlib

namespace CryptoChat.Lib.BlockLoop

variable {m : Type → Type} [Monad m] {α : Type} {f g : List α → m (List α)} {n : Nat} {data : List α}

def loop (f : List α → m (List α)) (n : Nat) (data : List α) (i : Nat) (out : List α) : m (List α) :=
  if 0 < n ∧ i < data.length then do
    let block ← f ((data.drop i).take n)
    loop f n data (i + n) (out ++ block)
  else pure out
termination_by data.length - i

theorem loop_end {i : Nat} (hi : data.length ≤ i) (out : List α) : loop f n data i out = pure out := by
  rw [loop, if_neg (by omega)]

theorem loop_next (hn : 0 < n) {i : Nat} (hi : i < data.length) (out : List α) :
    loop f n data i out = f ((data.drop i).take n) >>= fun block => loop f n data (i + n) (out ++ block) := by
  rw [loop, if_pos ⟨hn, hi⟩]

theorem loop_block [LawfulMonad m] (hn : 0 < n) {i : Nat} (hi : i < data.length) {block : List α}
    (hf : f ((data.drop i).take n) = pure block) (out : List α) :
    loop f n data i out = loop f n data (i + n) (out ++ block) := by
  rw [loop_next hn hi, hf, pure_bind]

theorem loop_total [LawfulMonad m] (hf : ∀ block, ∃ out, f block = pure out) (i : Nat) (out : List α) :
    ∃ result, loop f n data i out = pure result := by
  fun_induction loop f n data i out with
  | case1 i out hi ih =>
    obtain ⟨block, hblock⟩ := hf ((data.drop i).take n)
    rw [hblock, pure_bind]
    exact ih block
  | case2 i out hi => exact ⟨out, rfl⟩

/-- The block read when `k` more are to come is whole. -/
theorem length_block {i k : Nat} (hlen : i + n * (k + 1) ≤ data.length) : ((data.drop i).take n).length = n := by
  rw [Nat.mul_succ] at hlen
  rw [List.length_take, List.length_drop]
  omega

theorem loop_whole [LawfulMonad m] {F : List α → List α} (hn : 0 < n)
    (hf : ∀ block : List α, block.length = n → f block = pure (F block)) (k i : Nat)
    (hlen : data.length = i + n * k) (out : List α) :
    ∃ blocks : List (List α), data.drop i = blocks.flatten ∧ (∀ block ∈ blocks, block.length = n) ∧
      loop f n data i out = pure (out ++ blocks.flatMap F) := by
  induction k generalizing i out with
  | zero =>
    refine ⟨[], ?_, by simp, ?_⟩
    · rw [List.drop_eq_nil_of_le (by omega), List.flatten_nil]
    · rw [loop_end (by omega), List.flatMap_nil, List.append_nil]
  | succ k ih =>
    have hblock := length_block (Nat.le_of_eq hlen.symm)
    rw [Nat.mul_succ] at hlen
    obtain ⟨blocks, hsplit, hall, hloop⟩ := ih (i + n) (by omega) (out ++ F ((data.drop i).take n))
    refine ⟨(data.drop i).take n :: blocks, ?_, ?_, ?_⟩
    · rw [List.flatten_cons, ← hsplit, ← List.drop_drop, List.take_append_drop]
    · exact List.forall_mem_cons.mpr ⟨hblock, hall⟩
    · rw [loop_block hn (by omega) (hf _ hblock), hloop, List.flatMap_cons, List.append_assoc]

theorem loop_short [LawfulMonad m] {F : List α → List α}
    (hf : ∀ block : List α, block.length = n → f block = pure (F block)) {r : Nat} (hr : 0 < r) (hrn : r < n) (k i : Nat)
    (hlen : data.length = i + n * k + r) (out : List α) :
    ∃ done, loop f n data i out = f (data.drop (i + n * k)) >>= fun block => pure (done ++ block) := by
  have hn : 0 < n := Nat.lt_trans hr hrn
  induction k generalizing i out with
  | zero =>
    have hlast : (data.drop i).take n = data.drop i := by
      apply List.take_of_length_le
      rw [List.length_drop]
      omega
    refine ⟨out, ?_⟩
    rw [loop_next hn (by omega), hlast, Nat.mul_zero, Nat.add_zero]
    congr 1
    funext block
    exact loop_end (by omega) _
  | succ k ih =>
    have hblock := length_block (Nat.le_trans (Nat.le_add_right _ r) (Nat.le_of_eq hlen.symm))
    rw [Nat.mul_succ] at hlen
    obtain ⟨done, hloop⟩ := ih (i + n) (by omega) (out ++ F ((data.drop i).take n))
    refine ⟨done, ?_⟩
    rw [loop_block hn (by omega) (hf _ hblock), hloop]
    rw [Nat.mul_succ, Nat.add_right_comm, Nat.add_assoc i]

/-- On whole blocks of elements with `P`, wherever they stand in what is read back. -/
theorem loop_undo [LawfulMonad m] {P : α → Prop} (hn : 0 < n)
    (hback : ∀ block : List α, block.length = n → (∀ a ∈ block, P a) →
      ∃ out, f block = pure out ∧ out.length = n ∧ g out = pure block)
    (hdata : ∀ a ∈ data, P a) (k i : Nat) (hlen : data.length = i + n * k) (done : List α) :
    ∃ out, loop f n data i done = pure (done ++ out) ∧
      ∀ before done', loop g n (before ++ out) before.length done' = pure (done' ++ data.drop i) := by
  induction k generalizing i done with
  | zero =>
    refine ⟨[], ?_, ?_⟩
    · rw [loop_end (by omega), List.append_nil]
    · intro before done'
      rw [loop_end (by simp), List.drop_eq_nil_of_le (by omega), List.append_nil]
  | succ k ih =>
    have hwhole := length_block (Nat.le_of_eq hlen.symm)
    rw [Nat.mul_succ] at hlen
    obtain ⟨block, hf, hout, hg⟩ := hback _ hwhole fun a ha => hdata a (List.mem_of_mem_drop (List.mem_of_mem_take ha))
    obtain ⟨rest, hrest, hundo⟩ := ih (i + n) (by omega) (done ++ block)
    refine ⟨block ++ rest, ?_, ?_⟩
    · rw [loop_block hn (by omega) hf, hrest, List.append_assoc]
    · intro before done'
      have hread : ((before ++ (block ++ rest)).drop before.length).take n = block := by
        rw [List.drop_left, List.take_left' hout]
      have hsplit : (data.drop i).take n ++ data.drop (i + n) = data.drop i := by
        rw [← List.drop_drop, List.take_append_drop]
      have hnext := hundo (before ++ block) (done' ++ (data.drop i).take n)
      rw [List.append_assoc before, List.length_append, hout] at hnext
      rw [loop_block hn (by simp; omega) (hread.symm ▸ hg), hnext, List.append_assoc, hsplit]

/-- `pad` more elements complete the last block. -/
theorem loop_fill (hn : 0 < n) {a : α}
    (hf : ∀ block : List α, block.length ≤ n → f block = f (block ++ List.replicate (n - block.length) a))
    {pad : Nat} (hpad : pad < n) (k i : Nat) (hlen : data.length + pad = i + n * k) (out : List α) :
    loop f n data i out = loop f n (data ++ List.replicate pad a) i out := by
  have hfilled : (data ++ List.replicate pad a).length = i + n * k := by
    rw [List.length_append, List.length_replicate, hlen]
  induction k generalizing i out with
  | zero => rw [loop_end (by omega), loop_end (by omega)]
  | succ k ih =>
    rw [Nat.mul_succ] at hlen hfilled
    have hi : i < data.length := by omega
    have hread : f ((data.drop i).take n) = f (((data ++ List.replicate pad a).drop i).take n) := by
      rw [List.drop_append_of_le_length (by omega), List.take_append, List.take_replicate]
      by_cases hfull : n ≤ (data.drop i).length
      · rw [Nat.sub_eq_zero_of_le hfull, Nat.zero_min, List.replicate_zero, List.append_nil]
      · have hshort : (data.drop i).take n = data.drop i := List.take_of_length_le (by omega)
        have hlast : min (n - (data.drop i).length) pad = n - (data.drop i).length := by
          rw [List.length_drop] at hfull ⊢
          have hk : n * k = 0 := by
            rcases Nat.eq_zero_or_pos k with rfl | hpos
            · rfl
            · have := Nat.le_mul_of_pos_right n hpos
              omega
          omega
        rw [hshort, hlast]
        exact hf (data.drop i) (by omega)
    rw [loop_next hn hi, loop_next hn (by omega), hread]
    congr 1
    funext block
    exact ih (i + n) (by omega) _ (by omega)

end CryptoChat.Lib.BlockLoop
