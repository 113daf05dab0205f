/-
  CryptoChat.Net.SessionWrite — the write side of a plain session
  (`PlainSession::write`).

  `write` encodes a message and posts a handler; the handler starts an `async_write` of
  the frame, which sends it in pieces; nothing queues the frames. Posted handlers may run
  in any order, outstanding writes may send their pieces in any order, a write may fail
  (the connection is then broken), and the session may be closed from elsewhere.

  Proved: in every run that starts an `async_write` only while no other one has bytes
  left to send, the wire carries whole frames, one for each message, with at most the
  beginning of one more frame at its end (`whole_frames`). The code does not keep to
  that: two posted writes are both started, and their pieces mix (`frames_mix`).
-/

import CryptoChat.Net.Message
import CryptoChat.Lib.ListAt
import CryptoChat.Lib.Machine

namespace CryptoChat.Net.SessionWrite

open CryptoChat.Lib CryptoChat.Lib.ListAt

/-! ## The machine -/

/-- An outstanding `async_write`: its buffer and how much of it has been sent. -/
structure Op where
  bytes : Bytes
  sent : Nat
  deriving DecidableEq

structure St where
  /-- The frames of the handlers `write` posted. -/
  posted : List Bytes
  writing : List Op
  /-- What the peer receives. -/
  wire : Bytes
  broken : Bool
  mIsClosed : Bool
  /-- The calls of `close` posted by failed writes. -/
  closing : Nat
  errors : List String
  /-- The messages `write` was called with. -/
  written : List Message
  deriving DecidableEq

def init : St := ⟨[], [], [], false, false, 0, [], []⟩

inductive Ev where
  | write (m : Message)
  /-- The posted handler `i` runs. -/
  | start (i : Nat)
  /-- The outstanding write `i` sends its next `n` bytes. -/
  | send (i n : Nat)
  /-- The completion handlers. -/
  | finish (i : Nat)
  | fail (i : Nat) (e : String)
  /-- A posted `close` runs. -/
  | runClose
  /-- `close` is called from elsewhere. -/
  | close

def left (op : Op) : Bool := op.sent < op.bytes.length

variable (text : JsonText)

def next (s : St) : Ev → Option St
  | .write m => some { s with posted := s.posted ++ [m.encode text], written := s.written ++ [m] }
  | .start i =>
    s.posted[i]?.map fun bytes => { s with posted := s.posted.eraseIdx i, writing := s.writing ++ [⟨bytes, 0⟩] }
  | .send i n =>
    s.writing[i]?.bind fun op =>
      if s.mIsClosed = false ∧ s.broken = false ∧ 0 < n ∧ op.sent + n ≤ op.bytes.length then
        some { s with
          wire := s.wire ++ (op.bytes.drop op.sent).take n, writing := s.writing.set i { op with sent := op.sent + n } }
      else none
  | .finish i =>
    s.writing[i]?.bind fun op => if left op then none else some { s with writing := s.writing.eraseIdx i }
  | .fail i e =>
    s.writing[i]?.bind fun op =>
      if left op then
        some { s with
          writing := s.writing.eraseIdx i, broken := true, errors := s.errors ++ [e], closing := s.closing + 1 }
      else none
  | .runClose => if s.closing = 0 then none else some { s with closing := s.closing - 1, mIsClosed := true }
  | .close => some { s with mIsClosed := true }

/-- An `async_write` is started on an open connection only while no other has bytes left. -/
def OneAtATime (s : St) : Ev → Prop
  | .start _ => s.mIsClosed = false → s.broken = false → ∀ op ∈ s.writing, left op = false
  | _ => True

/-! ## Whole frames -/

/-- The outstanding writes that have bytes left to send. -/
def unfinished (s : St) : List Op := s.writing.filter left

/-- `sent` are the frames on the wire, in order, `lost` those of failed writes. -/
structure Inv (sent lost : List Bytes) (s : St) : Prop where
  /-- Every frame is sent, lost, being sent or posted. -/
  frames : (sent ++ lost ++ (unfinished s).map Op.bytes ++ s.posted).Perm (s.written.map (Message.encode text))
  ops : ∀ op ∈ s.writing, op.sent ≤ op.bytes.length
  /-- After the whole frames comes the beginning of one more. -/
  wire : ∃ part, s.wire = sent.flatten ++ part ∧
    (part = [] ∨ ∃ fr ∈ lost ++ (unfinished s).map Op.bytes, part <+: fr ∧ part ≠ fr) ∧
    (s.broken = false → part = (unfinished s).flatMap fun op => op.bytes.take op.sent)
  lost : s.broken = false → lost = []
  single : s.mIsClosed = false → s.broken = false → (unfinished s).length ≤ 1

variable {text}

theorem inv_init : Inv text [] [] init :=
  ⟨.nil, by simp [init], ⟨[], rfl, .inl rfl, fun _ => rfl⟩, fun _ => rfl, by simp [unfinished, init]⟩

theorem encode_ne_nil (m : Message) : m.encode text ≠ [] := by simp [Message.encode]

theorem posted_ne_nil {sent lost : List Bytes} {s : St} (h : Inv text sent lost s) {bytes : Bytes}
    (hb : bytes ∈ s.posted) : bytes ≠ [] := by
  have := h.frames.subset (List.mem_append_right _ hb)
  obtain ⟨m, -, rfl⟩ := List.mem_map.mp this
  exact encode_ne_nil m

theorem inv_start {sent lost : List Bytes} {s : St} {i : Nat} {bytes : Bytes} (h : Inv text sent lost s)
    (ho : OneAtATime s (.start i)) (hb : s.posted[i]? = some bytes) :
    Inv text sent lost { s with posted := s.posted.eraseIdx i, writing := s.writing ++ [⟨bytes, 0⟩] } := by
  have hne := posted_ne_nil h (List.mem_of_getElem? hb)
  have hleft : left ⟨bytes, 0⟩ = true := by simpa [left] using List.length_pos_of_ne_nil hne
  have hu : unfinished { s with posted := s.posted.eraseIdx i, writing := s.writing ++ [⟨bytes, 0⟩] } =
      unfinished s ++ [⟨bytes, 0⟩] := by simp [unfinished, hleft]
  obtain ⟨part, hw, hp, hl⟩ := h.wire
  refine ⟨?_, ?_, ⟨part, hw, ?_, ?_⟩, h.lost, ?_⟩
  · have hperm := (perm_eraseIdx hb).append_left (sent ++ lost ++ (unfinished s).map Op.bytes)
    rw [hu]
    simpa using hperm.symm.trans h.frames
  · intro op hop
    rcases List.mem_append.mp hop with hop | hop
    · exact h.ops op hop
    · obtain rfl := List.mem_singleton.mp hop
      exact Nat.zero_le _
  · refine hp.imp_right fun ⟨fr, hfr, hpre⟩ => ⟨fr, ?_, hpre⟩
    rw [hu, List.map_append, ← List.append_assoc]
    exact List.mem_append_left _ hfr
  · intro hb
    rw [hu, hl hb]
    simp
  · intro hc hb
    have : unfinished s = [] := List.filter_eq_nil_iff.mpr fun op hop => by simp [ho hc hb op hop]
    simp [hu, this]

theorem inv_send {sent lost : List Bytes} {s : St} {i n : Nat} {op : Op} (h : Inv text sent lost s)
    (hop : s.writing[i]? = some op) (hc : s.mIsClosed = false) (hb : s.broken = false) (h0 : 0 < n)
    (hn : op.sent + n ≤ op.bytes.length) :
    ∃ sent', Inv text sent' lost { s with
      wire := s.wire ++ (op.bytes.drop op.sent).take n
      writing := s.writing.set i { op with sent := op.sent + n } } := by
  have hleft : left op = true := by simp [left]; omega
  obtain ⟨a, b, hu, hu'⟩ := filter_set hop hleft ⟨op.bytes, op.sent + n⟩
  have hlen := h.single hc hb
  simp only [unfinished, hu, List.length_append, List.length_cons] at hlen
  obtain rfl : a = [] := List.length_eq_zero_iff.mp (by omega)
  obtain rfl : b = [] := List.length_eq_zero_iff.mp (by omega)
  have hu : unfinished s = [op] := hu
  obtain ⟨part, hw, -, hl⟩ := h.wire
  have hpart : part = op.bytes.take op.sent := by simpa [hu] using hl hb
  have hwire : s.wire ++ (op.bytes.drop op.sent).take n = sent.flatten ++ op.bytes.take (op.sent + n) := by
    rw [hw, hpart, List.append_assoc, ← List.take_add]
  have hops : ∀ o ∈ s.writing.set i ⟨op.bytes, op.sent + n⟩, o.sent ≤ o.bytes.length := by
    intro o ho
    rcases List.mem_or_eq_of_mem_set ho with ho | rfl
    · exact h.ops o ho
    · exact hn
  have hframes := h.frames
  rw [hu, h.lost hb] at hframes
  by_cases hdone : left ⟨op.bytes, op.sent + n⟩ = true
  · have hu' : unfinished { s with
        wire := s.wire ++ (op.bytes.drop op.sent).take n, writing := s.writing.set i ⟨op.bytes, op.sent + n⟩ } =
          [⟨op.bytes, op.sent + n⟩] := by
      simp only [unfinished, hu']
      simp [hdone]
    refine ⟨sent, ?_, hops, ⟨op.bytes.take (op.sent + n), hwire, .inr ⟨op.bytes, ?_, List.take_prefix _ _, ?_⟩, ?_⟩,
      h.lost, ?_⟩
    · rw [hu', h.lost hb]
      exact hframes
    · simp [hu']
    · intro he
      have := congrArg List.length he
      simp [left] at this hdone
      omega
    · simp [hu']
    · simp [hu']
  · have hfull : op.bytes.take (op.sent + n) = op.bytes := by
      refine List.take_of_length_le ?_
      simp [left] at hdone
      exact hdone
    have hu' : unfinished { s with
        wire := s.wire ++ (op.bytes.drop op.sent).take n
        writing := s.writing.set i ⟨op.bytes, op.sent + n⟩ } = [] := by
      simp only [unfinished, hu']
      simp [hdone]
    refine ⟨sent ++ [op.bytes], ?_, hops, ⟨[], ?_, .inl rfl, ?_⟩, h.lost, ?_⟩
    · rw [hu', h.lost hb]
      simpa using hframes
    · rw [hwire, hfull]
      simp
    · simp [hu']
    · simp [hu']

theorem inv_finish {sent lost : List Bytes} {s : St} {i : Nat} {op : Op} (h : Inv text sent lost s)
    (hop : s.writing[i]? = some op) (hl : left op = false) :
    Inv text sent lost { s with writing := s.writing.eraseIdx i } := by
  obtain ⟨a, b, hu, hu'⟩ := filter_eraseIdx (p := left) hop
  have hu : unfinished { s with writing := s.writing.eraseIdx i } = unfinished s := by
    simp [unfinished, hu, hu', hl]
  exact ⟨hu ▸ h.frames, fun o ho => h.ops o (List.mem_of_mem_eraseIdx ho), hu ▸ h.wire, h.lost, hu ▸ h.single⟩

theorem inv_fail {sent lost : List Bytes} {s : St} {i : Nat} {op : Op} (h : Inv text sent lost s)
    (hop : s.writing[i]? = some op) (hl : left op = true) (x : String) :
    Inv text sent (lost ++ [op.bytes]) { s with
      writing := s.writing.eraseIdx i, broken := true, errors := s.errors ++ [x], closing := s.closing + 1 } := by
  obtain ⟨a, b, hu, hu'⟩ := filter_eraseIdx (p := left) hop
  rw [if_pos hl] at hu
  have hu : unfinished s = a ++ [op] ++ b := hu
  have hu' : unfinished { s with
      writing := s.writing.eraseIdx i, broken := true, errors := s.errors ++ [x], closing := s.closing + 1 } =
        a ++ b := hu'
  obtain ⟨part, hw, hp, -⟩ := h.wire
  refine ⟨?_, fun o ho => h.ops o (List.mem_of_mem_eraseIdx ho), ⟨part, hw, ?_, nofun⟩, nofun, nofun⟩
  · have hframes := h.frames
    rw [hu] at hframes
    rw [hu']
    refine List.Perm.trans (List.Perm.append_right s.posted ?_) hframes
    simp only [List.map_append, List.map_cons, List.append_assoc, List.singleton_append]
    exact (List.perm_middle.symm.append_left lost).append_left sent
  · refine hp.imp_right fun ⟨fr, hfr, hpre⟩ => ⟨fr, ?_, hpre⟩
    rw [hu] at hfr
    rw [hu']
    simp only [List.map_append, List.mem_append, List.map_cons, List.map_nil, List.mem_singleton] at hfr ⊢
    tauto

/-- The step lemma: the frames on the wire and the lost ones only grow. -/
theorem inv_next {sent lost : List Bytes} {s s' : St} {e : Ev} (h : Inv text sent lost s) (ho : OneAtATime s e)
    (hn : next text s e = some s') : ∃ sent' lost', Inv text sent' lost' s' := by
  cases e with
  | write m =>
    cases hn
    exact ⟨sent, lost, by simpa [unfinished] using h.frames.append_right [m.encode text], h.ops, h.wire, h.lost,
      h.single⟩
  | start i =>
    obtain ⟨bytes, hb, rfl⟩ := Option.map_eq_some_iff.mp hn
    exact ⟨sent, lost, inv_start h ho hb⟩
  | send i n =>
    obtain ⟨op, hop, hn⟩ := Option.bind_eq_some_iff.mp hn
    simp only [Option.ite_none_right_eq_some, Option.some.injEq] at hn
    obtain ⟨⟨hc, hb, h0, hle⟩, rfl⟩ := hn
    obtain ⟨sent', h'⟩ := inv_send h hop hc hb h0 hle
    exact ⟨sent', lost, h'⟩
  | finish i =>
    obtain ⟨op, hop, hn⟩ := Option.bind_eq_some_iff.mp hn
    simp only [Option.ite_none_left_eq_some, Option.some.injEq, Bool.not_eq_true] at hn
    obtain ⟨hl, rfl⟩ := hn
    exact ⟨sent, lost, inv_finish h hop hl⟩
  | fail i x =>
    obtain ⟨op, hop, hn⟩ := Option.bind_eq_some_iff.mp hn
    simp only [Option.ite_none_right_eq_some, Option.some.injEq] at hn
    obtain ⟨hl, rfl⟩ := hn
    exact ⟨sent, lost ++ [op.bytes], inv_fail h hop hl x⟩
  | runClose =>
    simp only [next, Option.ite_none_left_eq_some, Option.some.injEq] at hn
    obtain ⟨-, rfl⟩ := hn
    exact ⟨sent, lost, h.frames, h.ops, h.wire, h.lost, nofun⟩
  | close =>
    cases hn
    exact ⟨sent, lost, h.frames, h.ops, h.wire, h.lost, nofun⟩

theorem run_inv {s : St} (h : Machine.Run (next text) OneAtATime init s) : ∃ sent lost, Inv text sent lost s :=
  Machine.run_invariant (fun s => ∃ sent lost, Inv text sent lost s) ⟨[], [], inv_init⟩
    (fun _ _ _ ⟨_, _, hi⟩ ho hn => inv_next hi ho hn) h

/-- With one write at a time the wire carries whole frames, one for each message, and at most
    the beginning of one more. When no write has bytes left, and none has failed, it carries
    exactly the frames of the messages that are no longer posted. -/
theorem whole_frames {s : St} (h : Machine.Run (next text) OneAtATime init s) :
    ∃ sent rest part, s.wire = sent.flatten ++ part ∧ (sent ++ rest).Perm (s.written.map (Message.encode text)) ∧
      (part = [] ∨ ∃ fr ∈ rest, part <+: fr ∧ part ≠ fr) ∧
      ((∀ op ∈ s.writing, left op = false) → s.broken = false → part = [] ∧ rest = s.posted) := by
  obtain ⟨sent, lost, hi⟩ := run_inv h
  obtain ⟨part, hw, hp, hl⟩ := hi.wire
  refine ⟨sent, lost ++ (unfinished s).map Op.bytes ++ s.posted, part, hw, by simpa using hi.frames, ?_,
    ?_⟩
  · exact hp.imp_right fun ⟨fr, hfr, hpre⟩ => ⟨fr, List.mem_append_left _ hfr, hpre⟩
  · intro hidle hb
    have hu : unfinished s = [] := List.filter_eq_nil_iff.mpr fun op hop => by simp [hidle op hop]
    simp [hl hb, hi.lost hb, hu]

/-! ## Two writes -/

def sampleResponse : Message := ⟨.response, .obj []⟩

/-- A broadcast and a response, both posted, both started, three bytes of each at first. -/
def mixing : List Ev :=
  [.write samplePush, .write sampleResponse, .start 0, .start 0, .send 0 3, .send 1 3, .send 0 4, .send 1 4]

theorem whole_frames_one :
    ∃ s, Machine.Run (next sampleText) OneAtATime init s ∧ s.wire = samplePush.encode sampleText ∧
      ∃ (sent rest : List Bytes) (part : Bytes), s.wire = sent.flatten ++ part ∧
        (sent ++ rest).Perm (s.written.map (Message.encode sampleText)) := by
  have h0 : Machine.Run (next sampleText) OneAtATime init init := Machine.Run.refl
  have hrun := ((h0.snoc (e := .write samplePush) trivial rfl).snoc (e := .start 0) (fun _ _ _ h => nomatch h) rfl).snoc
    (e := .send 0 7) trivial rfl
  obtain ⟨sent, rest, part, hw, hp, -⟩ := whole_frames hrun
  exact ⟨_, hrun, by decide, sent, rest, part, hw, hp⟩

/-- Both frames are sent in full, and what the peer received is neither after the other. -/
theorem frames_mix :
    ∃ s, Machine.Run (next sampleText) Machine.any init s ∧ (∀ op ∈ s.writing, left op = false) ∧ s.posted = [] ∧
      ¬ ∃ order : List Bytes, order.Perm (s.written.map (Message.encode sampleText)) ∧ s.wire = order.flatten := by
  refine ⟨_, Machine.run_of_exec mixing rfl, by decide, rfl, ?_⟩
  intro h
  obtain ⟨order, hp, hw⟩ := h
  have hp : order.Perm [samplePush.encode sampleText, sampleResponse.encode sampleText] := hp
  obtain ⟨a, b, rfl⟩ := List.length_eq_two.mp (hp.length_eq.trans rfl)
  have ha := hp.subset (List.mem_cons_self (a := a))
  have hb := hp.subset (List.mem_cons_of_mem a (List.mem_singleton_self b))
  simp only [List.mem_cons, List.not_mem_nil, or_false] at ha hb
  rcases ha with rfl | rfl <;> rcases hb with rfl | rfl <;> exact absurd hw (by decide)

end CryptoChat.Net.SessionWrite
