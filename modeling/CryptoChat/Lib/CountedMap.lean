/-
  CryptoChat.Lib.CountedMap — maps that change only the elements with `p`, each in a way
  that may depend on how many of them stand before it.

  - `getElem?_countedMap`: what stands at a place, without the walk.
  - `countedMap_comp`: maps that keep `p` compose element by element, since both count the
    same elements.
-/

import Mathlib

namespace CryptoChat.Lib.CountedMap

variable {α : Type} {p : α → Bool} {f g : Nat → α → α}

/-- `f` of the number of elements with `p` before, counted from `k`. -/
def countedMap (p : α → Bool) (f : Nat → α → α) : Nat → List α → List α
  | _, [] => []
  | k, a :: l => if p a then f k a :: countedMap p f (k + 1) l else a :: countedMap p f k l

theorem length_countedMap (k : Nat) (l : List α) : (countedMap p f k l).length = l.length := by
  fun_induction countedMap p f k l with
  | case1 => rfl
  | case2 k a l _ ih => rw [List.length_cons, ih, List.length_cons]
  | case3 k a l _ ih => rw [List.length_cons, ih, List.length_cons]

theorem getElem?_countedMap (k : Nat) (l : List α) (i : Nat) :
    (countedMap p f k l)[i]? = l[i]?.map fun a => if p a then f (k + (l.take i).countP p) a else a := by
  fun_induction countedMap p f k l generalizing i with
  | case1 => rfl
  | case2 k a l ha ih =>
    cases i with
    | zero => simp [ha]
    | succ i =>
      rw [List.getElem?_cons_succ, ih, List.getElem?_cons_succ, List.take_succ_cons, List.countP_cons_of_pos ha]
      congr 1
      funext b
      rw [Nat.add_assoc, Nat.add_comm 1]
  | case3 k a l ha ih =>
    cases i with
    | zero => simp [ha]
    | succ i => rw [List.getElem?_cons_succ, ih, List.getElem?_cons_succ, List.take_succ_cons, List.countP_cons_of_neg ha]

/-- Where all elements have `p`, the number is the place. -/
theorem getElem?_countedMap_replicate {a : α} (ha : p a) (i : Nat) :
    (countedMap p f 0 (List.replicate (i + 1) a))[i]? = some (f i a) := by
  have hcount : (List.replicate i a).countP p = i := by
    rw [List.countP_replicate, if_pos ha]
  rw [getElem?_countedMap, List.getElem?_replicate_of_lt (Nat.lt_succ_self i), List.take_replicate,
    Nat.min_eq_left (Nat.le_succ i), hcount, Option.map_some, if_pos ha, Nat.zero_add]

/-- The second map counts what the first one counted. -/
theorem countedMap_comp (hp : ∀ n a, p (f n a) = p a) (k : Nat) (l : List α) :
    countedMap p g k (countedMap p f k l) = countedMap p (fun n a => g n (f n a)) k l := by
  fun_induction countedMap p f k l with
  | case1 => rfl
  | case2 k a l ha ih => rw [countedMap, if_pos ((hp k a).trans ha), ih, countedMap, if_pos ha]
  | case3 k a l ha ih => rw [countedMap, if_neg ha, ih, countedMap, if_neg ha]

theorem countedMap_id (h : ∀ n a, f n a = a) (k : Nat) (l : List α) : countedMap p f k l = l := by
  fun_induction countedMap p f k l with
  | case1 => rfl
  | case2 k a l _ ih => rw [h, ih]
  | case3 k a l _ ih => rw [ih]

theorem countedMap_congr (h : ∀ n a, p a → f n a = g n a) (k : Nat) (l : List α) :
    countedMap p f k l = countedMap p g k l := by
  fun_induction countedMap p f k l with
  | case1 => rfl
  | case2 k a l ha ih => rw [h k a ha, ih, countedMap, if_pos ha]
  | case3 k a l ha ih => rw [ih, countedMap, if_neg ha]

/-- Where the number does not matter. -/
theorem countedMap_map {h : α → α} (hp : ∀ n a, p a → f n a = h a) (hother : ∀ a, ¬ p a → h a = a) (k : Nat)
    (l : List α) : countedMap p f k l = l.map h := by
  fun_induction countedMap p f k l with
  | case1 => rfl
  | case2 k a l ha ih => rw [hp k a ha, ih, List.map_cons]
  | case3 k a l ha ih => rw [ih, List.map_cons, hother a ha]

end CryptoChat.Lib.CountedMap
