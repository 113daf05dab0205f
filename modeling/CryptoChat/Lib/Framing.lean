/-
  CryptoChat.Lib.Framing — messages on a stream that a program takes by exact reads.

  `Frames` is what is asked of the program: given a stream made of messages whole, it hands
  them over and goes on reading. Proved, for a connection whose stream is made of messages,
  of which any part has arrived in any pieces: the program is reading, and what it has
  handed over is a prefix of the messages (`handed_prefix`); when all has arrived and
  nothing is left to do, it has handed over all (`handed_all`).
-/

import CryptoChat.Lib.ExactRead

namespace CryptoChat.Lib.Framing

open ExactRead

variable {σ β ε μ : Type}

structure Frames (R : Reader σ β ε) (s₀ : σ) (encode : μ → List β) (handed : σ → List μ) (good : μ → Prop) : Prop where
  grows : ∀ s bs, handed s <+: handed (R.feed s bs)
  whole : ∀ ms, (∀ m ∈ ms, good m) → ∃ s, drain R s₀ (ms.flatMap encode) = (s, []) ∧ handed s = ms ∧ R.want s ≠ none

variable {R : Reader σ β ε} {s₀ : σ} {encode : μ → List β} {handed : σ → List μ} {good : μ → Prop}
  {ms : List μ} {c : Conn σ β ε}

theorem Frames.drain_grows (h : Frames R s₀ encode handed good) (s : σ) (bs : List β) :
    handed s <+: handed (drain R s bs).1 :=
  drain_extends R (fun s s' => handed s <+: handed s') (fun _ => List.prefix_rfl) (fun _ _ _ => List.IsPrefix.trans)
    h.grows s bs

/-- On a part of the stream: the rest would make it hand over the others. -/
theorem Frames.drain_prefix (h : Frames R s₀ encode handed good) (hgood : ∀ m ∈ ms, good m) {part : List β}
    (hpart : part <+: ms.flatMap encode) :
    handed (drain R s₀ part).1 <+: ms ∧ R.want (drain R s₀ part).1 ≠ none := by
  obtain ⟨s, hdrain, rfl, hwant⟩ := h.whole ms hgood
  obtain ⟨rest, hrest⟩ := hpart
  rw [← hrest, drain_append] at hdrain
  constructor
  · have hgrows := h.drain_grows (drain R s₀ part).1 ((drain R s₀ part).2 ++ rest)
    rwa [hdrain] at hgrows
  · intro hnone
    rw [drain_stopped R hnone] at hdrain
    exact hwant ((Prod.mk.inj hdrain).1 ▸ hnone)

theorem handed_prefix (h : Frames R s₀ encode handed good) (hgood : ∀ m ∈ ms, good m) (hinv : Inv R s₀ c)
    (hlive : c.failed = none) (harrived : c.arrived <+: ms.flatMap encode) :
    handed c.state <+: ms ∧ R.want c.state ≠ none := by
  have hdrain := hinv.live hlive
  obtain ⟨hpre, hwant⟩ := h.drain_prefix hgood ((List.prefix_append c.taken c.avail).trans harrived)
  rw [hdrain] at hpre hwant
  refine ⟨(h.drain_grows c.state c.got).trans hpre, ?_⟩
  intro hnone
  rw [drain_stopped R hnone] at hwant
  exact hwant hnone

theorem handed_all (h : Frames R s₀ encode handed good) (hgood : ∀ m ∈ ms, good m) (hinv : Inv R s₀ c)
    (hlive : c.failed = none) (hquiet : Quiescent R c) (harrived : c.arrived = ms.flatMap encode) :
    handed c.state = ms ∧ c.got = [] ∧ c.avail = [] := by
  obtain ⟨s, hdrain, hhanded, -⟩ := h.whole ms hgood
  rw [← harrived, quiescent_drain R hinv hlive hquiet] at hdrain
  obtain ⟨rfl, hrest⟩ := Prod.mk.inj hdrain
  exact ⟨hhanded, List.append_eq_nil_iff.mp hrest⟩

end CryptoChat.Lib.Framing
