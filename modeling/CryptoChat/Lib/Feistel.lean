/-
  CryptoChat.Lib.Feistel — Feistel networks over any type of half blocks, with a
  mixing operation `op` that undoes itself. The same network, run over the keys in
  the opposite order on the swapped halves, undoes a network (`rounds_reverse`),
  whatever the round function is.
-/

import Mathlib

namespace CryptoChat.Lib.Feistel

variable {α κ : Type} (op : α → α → α) (f : κ → α → α)

/-- `(L, R)` becomes `(R, L + f k R)`. -/
def round (s : α × α) (k : κ) : α × α := (s.2, op s.1 (f k s.2))

def rounds (ks : List κ) (s : α × α) : α × α := ks.foldl (round op f) s

theorem rounds_congr {g : κ → α → α} {ks : List κ} (h : ∀ k ∈ ks, ∀ a, f k a = g k a) (s : α × α) :
    rounds op f ks s = rounds op g ks s :=
  List.foldl_ext _ _ _ fun _ k hk => by simp [round, h k hk]

section Inverse

variable {op}

variable (hop : ∀ a b, op (op a b) b = a)

include hop

theorem round_swap_round (s : α × α) (k : κ) : round op f (round op f s k).swap k = s.swap := by
  simp [round, hop, Prod.swap]

theorem rounds_reverse (ks : List κ) (s : α × α) : rounds op f ks.reverse (rounds op f ks s).swap = s.swap := by
  induction ks generalizing s with
  | nil => rfl
  | cons k ks ih =>
    have ih := ih (round op f s k)
    simp only [rounds, List.reverse_cons, List.foldl_append, List.foldl_cons, List.foldl_nil] at ih ⊢
    rw [ih, round_swap_round f hop]

end Inverse

end CryptoChat.Lib.Feistel
