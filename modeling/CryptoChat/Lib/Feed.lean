/-
  CryptoChat.Lib.Feed — a registry, which is a partial map, and a follower that has only
  the changes of it that were sent: each is put or dropped by key, in order.

  A follower is sound if what it has is what the registry has; it may lack keys it was not
  told of. A listing tells it all there is.

  Proved: soundness is kept when the registry changes and the follower is told
  (`Sound.put`, `Sound.drop`), and when a key is added that it is not told of
  (`Sound.add`); a listing makes a sound follower equal to the registry (`replay_listing`).
-/

import Mathlib

namespace CryptoChat.Lib.Feed

inductive Change (κ ν : Type) where
  | put (key : κ) (value : ν)
  | drop (key : κ)

variable {κ ν : Type}

/-- What the follower has, the registry has. -/
def Sound (registry f : κ → Option ν) : Prop := ∀ k v, f k = some v → registry k = some v

theorem Sound.empty {registry : κ → Option ν} : Sound registry fun _ => none := fun _ _ h => by cases h

variable [DecidableEq κ]

def apply (f : κ → Option ν) : Change κ ν → κ → Option ν
  | .put key value => Function.update f key (some value)
  | .drop key => Function.update f key none

def replay (changes : List (Change κ ν)) (f : κ → Option ν) : κ → Option ν := changes.foldl apply f

variable {f registry : κ → Option ν} {key : κ} {value : ν}

@[simp] theorem replay_nil : replay [] f = f := rfl

theorem replay_cons (c : Change κ ν) (changes : List (Change κ ν)) : replay (c :: changes) f = replay changes (apply f c) :=
  rfl

theorem replay_append (changes more : List (Change κ ν)) : replay (changes ++ more) f = replay more (replay changes f) :=
  List.foldl_append

@[simp] theorem replay_put : replay [.put key value] f = Function.update f key (some value) := rfl

@[simp] theorem replay_drop : replay [.drop key] f = Function.update f key none := rfl

/-- A run of puts, whose values depend on the keys. -/
theorem replay_puts (keys : List κ) (g : κ → ν) (f : κ → Option ν) (k : κ) :
    replay (keys.map fun key => .put key (g key)) f k = if k ∈ keys then some (g k) else f k := by
  induction keys generalizing f with
  | nil => rfl
  | cons key keys ih =>
    rw [List.map_cons, replay_cons, ih]
    by_cases hk : k = key
    · subst hk
      simp [apply]
    · simp [apply, hk]

theorem Sound.put (h : Sound registry f) :
    Sound (Function.update registry key (some value)) (Function.update f key (some value)) := by
  intro k v hv
  by_cases hk : k = key
  · subst hk
    simpa using hv
  · rw [Function.update_of_ne hk] at hv ⊢
    exact h k v hv

theorem Sound.drop (h : Sound registry f) : Sound (Function.update registry key none) (Function.update f key none) := by
  intro k v hv
  by_cases hk : k = key
  · subst hk
    simp at hv
  · rw [Function.update_of_ne hk] at hv ⊢
    exact h k v hv

/-- A key that was not there is added, and the follower is not told. -/
theorem Sound.add (h : Sound registry f) (hnew : registry key = none) :
    Sound (Function.update registry key (some value)) f := by
  intro k v hv
  have hk : k ≠ key := by
    rintro rfl
    cases hnew.symm.trans (h k v hv)
  rw [Function.update_of_ne hk]
  exact h k v hv

/-- After a listing of the registry a sound follower is the registry. -/
theorem replay_listing (h : Sound registry f) {keys : List κ} (hkeys : ∀ k, k ∈ keys ↔ (registry k).isSome) {g : κ → ν}
    (hg : ∀ k ∈ keys, registry k = some (g k)) : replay (keys.map fun key => .put key (g key)) f = registry := by
  funext k
  rw [replay_puts]
  by_cases hk : k ∈ keys
  · rw [if_pos hk, hg k hk]
  · rw [if_neg hk]
    cases hf : f k with
    | none =>
      have hnone : ¬(registry k).isSome := fun h => hk ((hkeys k).mpr h)
      rw [Option.not_isSome_iff_eq_none.mp hnone]
    | some v => exact (h k v hf).symm

end CryptoChat.Lib.Feed
