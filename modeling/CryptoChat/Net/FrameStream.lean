/-
  CryptoChat.Net.FrameStream — which frames at the front of a stream are good: the
  declared length is within the bound, the payload is not empty and parses, and the
  message callback returns. `Good` chains them, `Rejected` is a first frame that fails
  one of these checks.

  Proved: `scan` returns the longest chain of good frames and stops at its end
  (`scan_end`), the chain is unique (`Good.unique`), and the scans with and without a
  bound agree exactly where no oversized frame could be told apart (`scan_agree_iff`).
-/

import CryptoChat.Net.FrameReader

namespace CryptoChat.Net

open CryptoChat.Lib

variable (limit : Option Nat) (text : JsonText) (f : MessageCallback)

/-! ## Good frames -/

/-- The first frame of a stream, once it is complete: type, payload, and what follows it. -/
def frame? (bs : Bytes) : Option (MessageType × Bytes × Bytes) :=
  match header? bs with
  | none => none
  | some (type, len) =>
    if kHeaderSize + len ≤ bs.length then
      some (type, (bs.drop kHeaderSize).take len, bs.drop (kHeaderSize + len))
    else none

/-- The first frame passes every check, as the message `m`, after the messages in `past`. -/
structure Accepted (past : List Message) (bs : Bytes) (m : Message) (rest : Bytes) : Prop where
  frame : ∃ payload, frame? bs = some (m.type, payload, rest) ∧ (∀ l ∈ limit, payload.length ≤ l) ∧
    payload ≠ [] ∧ text.parse payload = .ok m.j
  callback : f past m = .ok ()

/-- The stream starts with frames that pass every check, as the messages `ms`. -/
inductive Good : List Message → Bytes → List Message → Bytes → Prop
  | nil (past : List Message) (bs : Bytes) : Good past bs [] bs
  | cons {past : List Message} {bs rest rest' : Bytes} {m : Message} {ms : List Message} :
    Accepted limit text f past bs m rest → Good (past ++ [m]) rest ms rest' → Good past bs (m :: ms) rest'

/-- The first frame fails a check: its header declares too much, or it is complete and fails
    another one. -/
def Rejected (past : List Message) (bs : Bytes) : Prop :=
  ∃ type len, header? bs = some (type, len) ∧
    ((∃ l ∈ limit, l < len) ∨ kHeaderSize + len ≤ bs.length ∧ ∀ m rest, ¬ Accepted limit text f past bs m rest)

/-- The longest prefix of good frames. -/
structure Longest (bs : Bytes) (ms : List Message) (rest : Bytes) : Prop where
  good : Good limit text f [] bs ms rest
  stops : ∀ m rest', ¬ Accepted limit text f ms rest m rest'

variable {limit text f} {past : List Message} {bs : Bytes} {type : MessageType} {len : Nat}

theorem frame?_some (hh : header? bs = some (type, len)) (hs : ¬ bs.length < kHeaderSize + len) :
    frame? bs = some (type, (bs.drop kHeaderSize).take len, bs.drop (kHeaderSize + len)) := by
  simp only [frame?, hh]
  rw [if_pos (by omega)]

theorem Accepted.unique {m m' : Message} {rest rest' : Bytes} (h : Accepted limit text f past bs m rest)
    (h' : Accepted limit text f past bs m' rest') : m = m' ∧ rest = rest' := by
  obtain ⟨payload, hf, -, -, hp⟩ := h.frame
  obtain ⟨payload', hf', -, -, hp'⟩ := h'.frame
  rw [hf] at hf'
  simp only [Option.some.injEq, Prod.mk.injEq] at hf'
  obtain ⟨ht, rfl, hr⟩ := hf'
  rw [hp] at hp'
  cases m
  cases m'
  simp_all

/-! ## The scan and the good frames -/

theorem decode_ok_iff {payload : Bytes} {m : Message} :
    Message.decode text type payload = .ok m ↔ payload ≠ [] ∧ text.parse payload = .ok m.j ∧ m.type = type := by
  unfold Message.decode
  split
  · simp [*]
  · cases h : text.parse payload with
    | error e => simp [Except.map]
    | ok j =>
      cases m
      simp only [Except.map, Except.ok.injEq, Message.mk.injEq]
      constructor
      · rintro ⟨rfl, rfl⟩
        simp [*]
      · rintro ⟨-, rfl, rfl⟩
        simp

/-- What acceptance is, for a stream whose header is complete. -/
theorem accepted_iff (hh : header? bs = some (type, len)) {m : Message} {rest : Bytes} :
    Accepted limit text f past bs m rest ↔
      ¬ limit.any (· < len) = true ∧ ¬ bs.length < kHeaderSize + len ∧
        Message.decode text type ((bs.drop kHeaderSize).take len) = .ok m ∧ f past m = .ok () ∧
          rest = bs.drop (kHeaderSize + len) := by
  have hbs := length_of_header? hh
  have hlim (hs : ¬ bs.length < kHeaderSize + len) : (∀ l ∈ limit, ((bs.drop kHeaderSize).take len).length ≤ l) ↔
      ¬ limit.any (· < len) = true := by
    have : ((bs.drop kHeaderSize).take len).length = len := by simp; omega
    cases limit <;> simp [this]
  constructor
  · intro h
    obtain ⟨⟨payload, hf, hl, hne, hp⟩, hcb⟩ := h
    by_cases hs : bs.length < kHeaderSize + len
    · simp [frame?, hh, show ¬ kHeaderSize + len ≤ bs.length by omega] at hf
    · rw [frame?_some hh hs] at hf
      simp only [Option.some.injEq, Prod.mk.injEq] at hf
      obtain ⟨ht, rfl, rfl⟩ := hf
      exact ⟨(hlim hs).mp hl, hs, decode_ok_iff.mpr ⟨hne, hp, ht.symm⟩, hcb, rfl⟩
  · intro h
    obtain ⟨hl, hs, hd, hcb, rfl⟩ := h
    obtain ⟨hne, hp, rfl⟩ := decode_ok_iff.mp hd
    exact ⟨⟨_, frame?_some hh hs, (hlim hs).mpr hl, hne, hp⟩, hcb⟩

theorem not_accepted_of_none (hh : header? bs = none) (m : Message) (rest : Bytes) :
    ¬ Accepted limit text f past bs m rest := by
  intro h
  obtain ⟨⟨payload, hf, -⟩, -⟩ := h
  simp [frame?, hh] at hf

theorem Accepted.length_lt {m : Message} {rest : Bytes} (h : Accepted limit text f past bs m rest) :
    rest.length < bs.length := by
  cases hh : header? bs with
  | none => exact absurd h (not_accepted_of_none hh m rest)
  | some hdr =>
    obtain ⟨type, len⟩ := hdr
    have hbs := length_of_header? hh
    obtain ⟨-, -, -, -, rfl⟩ := (accepted_iff hh).mp h
    simp only [kHeaderSize, kTypeFieldSize, kLengthFieldSize, List.length_drop] at hbs ⊢
    omega

variable (limit text f) in
/-- Every stream starts with a chain of good frames that no good frame follows. -/
theorem exists_good (past : List Message) (bs : Bytes) :
    ∃ ms rest, Good limit text f past bs ms rest ∧ ∀ m r, ¬ Accepted limit text f (past ++ ms) rest m r := by
  induction hn : bs.length using Nat.strong_induction_on generalizing past bs with
  | _ n ih =>
    by_cases h : ∃ m rest, Accepted limit text f past bs m rest
    · obtain ⟨m, rest, ha⟩ := h
      obtain ⟨ms, rest', hg, hs⟩ := ih rest.length (hn ▸ ha.length_lt) (past ++ [m]) rest rfl
      exact ⟨m :: ms, rest', .cons ha hg, by simpa using hs⟩
    · exact ⟨[], bs, .nil past bs, fun m r ha => h ⟨m, r, by simpa using ha⟩⟩

/-- After good frames the scan goes on from where they end. -/
theorem scan_of_good {ms : List Message} {rest : Bytes} (h : Good limit text f past bs ms rest) :
    scan limit text f past bs =
      ⟨ms ++ (scan limit text f (past ++ ms) rest).invoked, ms ++ (scan limit text f (past ++ ms) rest).returned,
        (scan limit text f (past ++ ms) rest).verdict, (scan limit text f (past ++ ms) rest).rest⟩ := by
  induction h with
  | nil past bs => simp
  | @cons past bs rest rest' m ms ha _ ih =>
    cases hh : header? bs with
    | none => exact absurd ha (not_accepted_of_none hh m rest)
    | some h =>
      obtain ⟨type, len⟩ := h
      obtain ⟨hl, hs, hd, hf, rfl⟩ := (accepted_iff hh).mp ha
      rw [scan_some hh, if_neg hl, if_neg hs, hd]
      simp only [hf, ih, List.append_assoc, List.cons_append, List.nil_append]

/-- A scan of a stream with no good frame at its front: nothing is returned, it gives up
    exactly at a frame that fails a check, and at most one call did not return. -/
structure Stopped (limit : Option Nat) (text : JsonText) (f : MessageCallback) (past : List Message) (bs : Bytes)
    (r : Scan) : Prop where
  returned : r.returned = []
  rest : r.rest = bs
  verdict : r.verdict ≠ .waiting ↔ Rejected limit text f past bs
  invoked : r.invoked = [] ∨ ∃ m e, r.invoked = [m] ∧ f past m = .error e

theorem rejected_iff (hh : header? bs = some (type, len)) (h : ∀ m rest, ¬ Accepted limit text f past bs m rest) :
    Rejected limit text f past bs ↔ limit.any (· < len) = true ∨ ¬ bs.length < kHeaderSize + len := by
  have hlim : limit.any (· < len) = true ↔ ∃ l ∈ limit, l < len := by
    cases limit <;> simp
  rw [hlim, Nat.not_lt]
  constructor
  · intro hrej
    obtain ⟨type', len', hh', hr⟩ := hrej
    rw [hh] at hh'
    cases hh'
    exact hr.imp_right And.left
  · exact fun hr => ⟨type, len, hh, hr.imp_right fun hs => ⟨hs, h⟩⟩

theorem scan_stopped (h : ∀ m rest, ¬ Accepted limit text f past bs m rest) :
    Stopped limit text f past bs (scan limit text f past bs) := by
  cases hh : header? bs with
  | none =>
    rw [scan_none hh]
    exact ⟨rfl, rfl, by simp [Rejected, hh], .inl rfl⟩
  | some hdr =>
    obtain ⟨type, len⟩ := hdr
    have hrej := rejected_iff hh h
    rw [scan_some hh]
    by_cases hl : limit.any (· < len) = true
    · rw [if_pos hl]
      exact ⟨rfl, rfl, by simp [hrej, hl], .inl rfl⟩
    · by_cases hs : bs.length < kHeaderSize + len
      · rw [if_neg hl, if_pos hs]
        exact ⟨rfl, rfl, by simp [hrej, hl, hs], .inl rfl⟩
      · rw [if_neg hl, if_neg hs]
        cases hd : Message.decode text type ((bs.drop kHeaderSize).take len) with
        | error e => exact ⟨rfl, rfl, by simp [hrej, hs], .inl rfl⟩
        | ok m =>
          cases hf : f past m with
          | error e =>
            simp only [hf]
            exact ⟨rfl, rfl, by simp [hrej, hs], .inr ⟨m, e, rfl, hf⟩⟩
          | ok _ => exact absurd ((accepted_iff hh).mpr ⟨hl, hs, hd, hf, rfl⟩) (h m _)

variable (limit text f) in
/-- The scan returns the good frames at the front of the stream, and then stops. -/
theorem scan_end (past : List Message) (bs : Bytes) :
    ∃ rest stop, Good limit text f past bs (scan limit text f past bs).returned rest ∧
      (∀ m r, ¬ Accepted limit text f (past ++ (scan limit text f past bs).returned) rest m r) ∧
      Stopped limit text f (past ++ (scan limit text f past bs).returned) rest stop ∧
      scan limit text f past bs = ⟨(scan limit text f past bs).returned ++ stop.invoked,
        (scan limit text f past bs).returned, stop.verdict, rest⟩ := by
  obtain ⟨ms, rest, hg, hs⟩ := exists_good limit text f past bs
  have hstop := scan_stopped hs
  have he := scan_of_good hg
  rw [hstop.returned, hstop.rest, List.append_nil] at he
  have hr : (scan limit text f past bs).returned = ms := by rw [he]
  rw [hr]
  exact ⟨rest, _, hg, hs, hstop, he⟩

variable (limit text f) in
theorem scan_longest (bs : Bytes) :
    Longest limit text f bs (scan limit text f [] bs).returned (scan limit text f [] bs).rest := by
  obtain ⟨rest, stop, hg, hs, -, he⟩ := scan_end limit text f [] bs
  have hr : (scan limit text f [] bs).rest = rest := by rw [he]
  rw [hr]
  exact ⟨hg, hs⟩

variable (limit text f) in
/-- The scan gives up exactly at a frame that fails a check. -/
theorem scan_verdict (past : List Message) (bs : Bytes) :
    (scan limit text f past bs).verdict ≠ .waiting ↔
      Rejected limit text f (past ++ (scan limit text f past bs).returned) (scan limit text f past bs).rest := by
  obtain ⟨rest, stop, -, -, hstop, he⟩ := scan_end limit text f past bs
  have hr : (scan limit text f past bs).rest = rest := by rw [he]
  have hv : (scan limit text f past bs).verdict = stop.verdict := by rw [he]
  rw [hr, hv]
  exact hstop.verdict

variable (limit text f) in
/-- At most one call of the callback did not return, the last one. -/
theorem scan_invoked (past : List Message) (bs : Bytes) :
    (scan limit text f past bs).invoked = (scan limit text f past bs).returned ∨
      ∃ m e, (scan limit text f past bs).invoked = (scan limit text f past bs).returned ++ [m] ∧
        f (past ++ (scan limit text f past bs).returned) m = .error e := by
  obtain ⟨rest, stop, -, -, hstop, he⟩ := scan_end limit text f past bs
  have hi : (scan limit text f past bs).invoked = (scan limit text f past bs).returned ++ stop.invoked := by
    conv_lhs => rw [he]
  rw [hi]
  rcases hstop.invoked with h | ⟨m, e, h, hf⟩
  · exact .inl (by rw [h, List.append_nil])
  · exact .inr ⟨m, e, by rw [h], hf⟩

/-! ## With and without a bound -/

theorem Accepted.unbounded {m : Message} {rest : Bytes} (h : Accepted limit text f past bs m rest) :
    Accepted none text f past bs m rest := by
  obtain ⟨⟨payload, hf, -, hne, hp⟩, hcb⟩ := h
  exact ⟨⟨payload, hf, by simp, hne, hp⟩, hcb⟩

theorem Good.unbounded {ms : List Message} {rest : Bytes} (h : Good limit text f past bs ms rest) :
    Good none text f past bs ms rest := by
  induction h with
  | nil past bs => exact .nil past bs
  | cons ha _ ih => exact .cons ha.unbounded ih

theorem Good.unique {ms ms' : List Message} {rest rest' : Bytes} (h : Good limit text f past bs ms rest)
    (hs : ∀ m r, ¬ Accepted limit text f (past ++ ms) rest m r) (h' : Good limit text f past bs ms' rest')
    (hs' : ∀ m r, ¬ Accepted limit text f (past ++ ms') rest' m r) : ms = ms' ∧ rest = rest' := by
  have hstop := scan_stopped hs
  have hstop' := scan_stopped hs'
  have e := scan_of_good h
  rw [scan_of_good h'] at e
  simp only [hstop.returned, hstop.rest, hstop'.returned, hstop'.rest, List.append_nil, Scan.mk.injEq] at e
  exact ⟨e.2.1.symm, e.2.2.2.symm⟩

/-- One frame past the bound: with the bound it is given up at the header, without it its body
    is awaited and decoded. -/
theorem scan_agree_at {l : Nat} (hstop : ∀ m rest, ¬ Accepted (some l) text f past bs m rest) :
    ((scan (some l) text f past bs).invoked = (scan none text f past bs).invoked ∧
        ((scan (some l) text f past bs).verdict = .waiting ↔ (scan none text f past bs).verdict = .waiting)) ↔
      ∀ type len, header? bs = some (type, len) → l < len →
        ¬ bs.length < kHeaderSize + len ∧ ∀ m, Message.decode text type ((bs.drop kHeaderSize).take len) ≠ .ok m := by
  cases hh : header? bs with
  | none => simp [scan_none hh]
  | some h =>
    obtain ⟨type, len⟩ := h
    have hnone : ¬ (none : Option Nat).any (· < len) = true := by simp
    by_cases hl : (some l).any (· < len) = true
    · have hlt : l < len := by simpa using hl
      have hone : (∀ type' len', some (type, len) = some (type', len') → l < len' →
          ¬ bs.length < kHeaderSize + len' ∧ ∀ m, Message.decode text type' ((bs.drop kHeaderSize).take len') ≠ .ok m) ↔
            ¬ bs.length < kHeaderSize + len ∧
              ∀ m, Message.decode text type ((bs.drop kHeaderSize).take len) ≠ .ok m := by
        constructor
        · exact fun h => h type len rfl hlt
        · rintro h _ _ ⟨⟩ _
          exact h
      rw [hone, scan_some hh, if_pos hl, scan_some hh, if_neg hnone]
      by_cases hs : bs.length < kHeaderSize + len
      · simp [hs]
      · rw [if_neg hs]
        cases hd : Message.decode text type ((bs.drop kHeaderSize).take len) with
        | error e => simp [hs]
        | ok m =>
          cases hf : f past m with
          | error e => simp [hf]
          | ok _ => simp [hf]
    · have hlt : ¬ l < len := by simpa using hl
      have hone : ∀ type' len', some (type, len) = some (type', len') → l < len' →
          ¬ bs.length < kHeaderSize + len' ∧
            ∀ m, Message.decode text type' ((bs.drop kHeaderSize).take len') ≠ .ok m := by
        rintro _ _ ⟨⟩ h
        exact absurd h hlt
      refine ⟨fun _ => hone, ?_⟩
      intro _
      rw [scan_some hh, if_neg hl, scan_some hh, if_neg hnone]
      by_cases hs : bs.length < kHeaderSize + len
      · simp [hs]
      · rw [if_neg hs, if_neg hs]
        cases hd : Message.decode text type ((bs.drop kHeaderSize).take len) with
        | error e => simp
        | ok m =>
          cases hf : f past m with
          | error e => simp [hf]
          | ok _ => exact absurd ((accepted_iff hh).mpr ⟨hl, hs, hd, hf, rfl⟩) (hstop m _)

/-- The scans with and without the bound `l` hand over the same messages, and give up or wait
    alike, exactly when an oversized frame they come to is complete and does not decode. -/
theorem scan_agree_iff {l : Nat} :
    ((scan (some l) text f past bs).invoked = (scan none text f past bs).invoked ∧
        ((scan (some l) text f past bs).verdict = .waiting ↔ (scan none text f past bs).verdict = .waiting)) ↔
      ∀ ms rest type len, Good (some l) text f past bs ms rest → header? rest = some (type, len) → l < len →
        ¬ rest.length < kHeaderSize + len ∧
          ∀ m, Message.decode text type ((rest.drop kHeaderSize).take len) ≠ .ok m := by
  obtain ⟨ms, rest, hg, hs⟩ := exists_good (some l) text f past bs
  have hat := scan_agree_at hs
  rw [scan_of_good hg, scan_of_good hg.unbounded]
  simp only [List.append_cancel_left_eq]
  rw [hat]
  constructor
  · intro h ms' rest' type len hg' hh hlt
    have hs' : ∀ m r, ¬ Accepted (some l) text f (past ++ ms') rest' m r := fun m r ha =>
      ((accepted_iff hh).mp ha).1 (by simpa using hlt)
    obtain ⟨rfl, rfl⟩ := hg.unique hs hg' hs'
    exact h type len hh hlt
  · exact fun h type len hh hlt => h ms rest type len hg hh hlt

end CryptoChat.Net
