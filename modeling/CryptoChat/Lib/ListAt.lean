/-
  CryptoChat.Lib.ListAt — lists read and changed at one index: what stays there when the
  list grows (`getElem?_append_some`), what stands there after a change (`getElem?_append_cases`,
  `getElem?_snoc`, `exists_getElem?_snoc`, `getElem?_set_some`, `getElem?_set_other`, `getElem?_set_rel`),
  what is left from there on (`drop_eq_cons`, `drop_of_head?`), what a filter keeps
  (`filter_set`, `filter_eraseIdx`) and what is left, up to order (`perm_eraseIdx`), and
  what a partial map of the list keeps (`filterMap_set`) and tells apart
  (`eq_of_nodup_filterMap`), and when two of them agree (`filterMap_eq_iff`).
-/

import Mathlib

namespace CryptoChat.Lib.ListAt

variable {α : Type} {p : α → Bool} {l : List α} {i : Nat} {x : α}

theorem getElem?_append_some (h : l[i]? = some x) (l' : List α) : (l ++ l')[i]? = some x := by
  rw [List.getElem?_append_left (List.getElem?_eq_some_iff.mp h).1, h]

/-- What stands in a list with more elements. -/
theorem getElem?_append_cases {l' : List α} (h : (l ++ l')[i]? = some x) : l[i]? = some x ∨ x ∈ l' := by
  rw [List.getElem?_append] at h
  split at h
  · exact .inl h
  · exact .inr (List.mem_of_getElem? h)

/-- What stands in a list with one more element. -/
theorem getElem?_snoc {y : α} (h : (l ++ [x])[i]? = some y) : l[i]? = some y ∨ i = l.length ∧ y = x := by
  rcases Nat.lt_trichotomy i l.length with hlt | rfl | hgt
  · rw [List.getElem?_append_left hlt] at h
    exact .inl h
  · rw [List.getElem?_concat_length, Option.some.injEq] at h
    exact .inr ⟨rfl, h.symm⟩
  · rw [List.getElem?_eq_none (by simp; omega)] at h
    cases h

/-- One more element adds no place for another. -/
theorem exists_getElem?_snoc {y : α} (hne : x ≠ y) :
    (∃ i : Nat, (l ++ [x])[i]? = some y) ↔ ∃ i : Nat, l[i]? = some y := by
  constructor
  · rintro ⟨i, hi⟩
    rcases getElem?_snoc hi with hi | ⟨-, heq⟩
    · exact ⟨i, hi⟩
    · exact absurd heq.symm hne
  · rintro ⟨i, hi⟩
    exact ⟨i, getElem?_append_some hi _⟩

/-- What stands in a list changed at one index. -/
theorem getElem?_set_some {j : Nat} {y : α} (h : (l.set i x)[j]? = some y) :
    i = j ∧ y = x ∨ i ≠ j ∧ l[j]? = some y := by
  by_cases hij : i = j
  · subst hij
    have hi := (List.getElem?_eq_some_iff.mp h).1
    rw [List.getElem?_set_self (by simpa using hi), Option.some.injEq] at h
    exact .inl ⟨rfl, h.symm⟩
  · rw [List.getElem?_set_ne hij] at h
    exact .inr ⟨hij, h⟩

/-- What differs from the element changed stands where it did. -/
theorem getElem?_set_other {j : Nat} {y : α} (hi : l[i]? = some x) (hj : l[j]? = some y) (hne : x ≠ y) (z : α) :
    (l.set i z)[j]? = some y := by
  have hij : i ≠ j := by
    rintro rfl
    exact hne (Option.some.inj (hi.symm.trans hj))
  rw [List.getElem?_set_ne hij, hj]

/-- Where one element changes along a relation, all do. -/
theorem getElem?_set_rel {R : α → α → Prop} (hrefl : ∀ a, R a a) {z : α} (hi : l[i]? = some x) (hz : R x z) {j : Nat}
    {y : α} (hj : l[j]? = some y) : ∃ w, (l.set i z)[j]? = some w ∧ R y w := by
  by_cases hij : i = j
  · subst hij
    obtain rfl := Option.some.inj (hi.symm.trans hj)
    exact ⟨z, List.getElem?_set_self (List.getElem?_eq_some_iff.mp hi).1, hz⟩
  · exact ⟨y, by rw [List.getElem?_set_ne hij, hj], hrefl y⟩

/-- What is left from one index on, and from the next. -/
theorem drop_eq_cons {rest : List α} (h : l.drop i = x :: rest) : l[i]? = some x ∧ l.drop (i + 1) = rest := by
  constructor
  · rw [← List.head?_drop, h]
    rfl
  · rw [← List.drop_drop, h]
    rfl

theorem drop_of_head? (h : (l.drop i).head? = some x) : l.drop i = x :: l.drop (i + 1) := by
  rw [List.head?_drop] at h
  obtain ⟨hi, rfl⟩ := List.getElem?_eq_some_iff.mp h
  exact List.drop_eq_getElem_cons hi

theorem eq_take_cons_drop (h : l[i]? = some x) : l = l.take i ++ x :: l.drop (i + 1) := by
  obtain ⟨hi, rfl⟩ := List.getElem?_eq_some_iff.mp h
  simp

theorem filter_set (h : l[i]? = some x) (hx : p x = true) (y : α) :
    ∃ a b, l.filter p = a ++ x :: b ∧ (l.set i y).filter p = a ++ (if p y then [y] else []) ++ b := by
  obtain ⟨hi, rfl⟩ := List.getElem?_eq_some_iff.mp h
  refine ⟨(l.take i).filter p, (l.drop (i + 1)).filter p, ?_, ?_⟩
  · conv_lhs => rw [eq_take_cons_drop h]
    rw [List.filter_append, List.filter_cons, if_pos hx]
  · rw [List.set_eq_take_append_cons_drop, if_pos hi, List.filter_append, List.filter_cons]
    split <;> simp

/-- Where an element that is kept stands in what is kept. -/
theorem getElem?_filter (h : l[i]? = some x) (hx : p x = true) : (l.filter p)[(l.take i).countP p]? = some x := by
  have hsplit : l.filter p = (l.take i).filter p ++ x :: (l.drop (i + 1)).filter p := by
    conv_lhs => rw [eq_take_cons_drop h]
    rw [List.filter_append, List.filter_cons_of_pos hx]
  rw [hsplit, List.countP_eq_length_filter, List.getElem?_append_right (Nat.le_refl _), Nat.sub_self]
  rfl

theorem filter_eraseIdx (h : l[i]? = some x) :
    ∃ a b, l.filter p = a ++ (if p x then [x] else []) ++ b ∧ (l.eraseIdx i).filter p = a ++ b := by
  refine ⟨(l.take i).filter p, (l.drop (i + 1)).filter p, ?_, ?_⟩
  · conv_lhs => rw [eq_take_cons_drop h]
    rw [List.filter_append, List.filter_cons]
    split <;> simp
  · rw [List.eraseIdx_eq_take_drop_succ, List.filter_append]

theorem perm_eraseIdx (h : l[i]? = some x) : l.Perm (x :: l.eraseIdx i) := by
  conv_lhs => rw [eq_take_cons_drop h]
  rw [List.eraseIdx_eq_take_drop_succ]
  exact List.perm_middle

/-! ## A partial map of the list -/

variable {β : Type} {f : α → Option β}

theorem filterMap_set {y : α} (h : l[i]? = some x) (hf : f y = f x) : (l.set i y).filterMap f = l.filterMap f := by
  obtain ⟨hi, rfl⟩ := List.getElem?_eq_some_iff.mp h
  conv_rhs => rw [eq_take_cons_drop h]
  rw [List.set_eq_take_append_cons_drop, if_pos hi, List.filterMap_append, List.filterMap_append, List.filterMap_cons,
    List.filterMap_cons, hf]

/-- Where the values are distinct, a value has one index. -/
theorem eq_of_nodup_filterMap (hnd : (l.filterMap f).Nodup) {j : Nat} {y : α} {b : β} (hi : l[i]? = some x)
    (hj : l[j]? = some y) (hx : f x = some b) (hy : f y = some b) : i = j := by
  obtain ⟨hil, rfl⟩ := List.getElem?_eq_some_iff.mp hi
  obtain ⟨hjl, rfl⟩ := List.getElem?_eq_some_iff.mp hj
  have hne := List.pairwise_iff_getElem.mp (List.pairwise_filterMap.mp hnd)
  rcases Nat.lt_trichotomy i j with hlt | heq | hgt
  · exact absurd rfl (hne i j hil hjl hlt b hx b hy)
  · exact heq
  · exact absurd rfl (hne j i hjl hil hgt b hy b hx)

/-- Where one partial map is another with values left out, they agree on a list if they leave the same. -/
theorem filterMap_eq_iff {g : α → Option β} (h : ∀ a ∈ l, g a = none ∨ g a = f a) :
    l.filterMap f = l.filterMap g ↔ ∀ a ∈ l, f a = g a := by
  have hlen {l : List α} (h : ∀ a ∈ l, g a = none ∨ g a = f a) : (l.filterMap g).length ≤ (l.filterMap f).length := by
    induction l with
    | nil => exact Nat.le_refl _
    | cons a l ih =>
      obtain ⟨ha, hl⟩ := List.forall_mem_cons.mp h
      have hrest := ih hl
      simp only [List.filterMap_cons]
      rcases ha with hnone | heq
      · rw [hnone]
        cases f a with
        | none => exact hrest
        | some b => exact Nat.le_succ_of_le hrest
      · rw [heq]
        cases f a with
        | none => exact hrest
        | some b => exact Nat.succ_le_succ hrest
  constructor
  · intro heq
    induction l with
    | nil => exact nofun
    | cons a l ih =>
      obtain ⟨ha, hl⟩ := List.forall_mem_cons.mp h
      have hrest := hlen hl
      refine List.forall_mem_cons.mpr ?_
      cases hf : f a with
      | none =>
        have hg : g a = none := by
          rcases ha with hnone | hsame
          · exact hnone
          · rw [hsame, hf]
        rw [List.filterMap_cons_none hf, List.filterMap_cons_none hg] at heq
        exact ⟨hg.symm, ih hl heq⟩
      | some b =>
        rw [List.filterMap_cons_some hf] at heq
        rcases ha with hnone | hsame
        · have hcount := congrArg List.length heq
          rw [List.filterMap_cons_none hnone, List.length_cons] at hcount
          omega
        · rw [hf] at hsame
          rw [List.filterMap_cons_some hsame] at heq
          exact ⟨hsame.symm, ih hl (List.cons.inj heq).2⟩
  · intro hall
    exact List.filterMap_congr hall

end CryptoChat.Lib.ListAt
