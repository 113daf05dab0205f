/-
  CryptoChat.Net.Pipe — one direction of a connection: the frames that one end writes, the
  bytes on the way, and the read loop of the other end.

  `Timely` is the assumption on the writes: an `async_write` is started in the order the
  frames were posted, and only when none before it has bytes left to send (without it the
  pieces of two frames mix, `SessionWrite.frames_mix`). Under it, whatever the pieces in
  which the bytes are sent, arrive and are read:
  - the messages handed over are a prefix of those written, and the loop is reading
    (`Pipe.handed_written`);
  - a step hands over one message at most (`Pipe.step_hands`);
  - when no step is left all that was written was handed over (`Pipe.handed_stuck`).
-/

import CryptoChat.Net.FrameLink
import CryptoChat.Net.SessionWrite

namespace CryptoChat.Net

open CryptoChat.Lib CryptoChat.Lib.ListAt ReadLoop

/-- `out` is the end that writes, `conn` the one that reads. -/
structure Pipe where
  out : SessionWrite.St
  conn : ExactRead.Conn ReadLoop Byte String

namespace Pipe

/-- A pipe whose reader starts in `s₀`. -/
def init (s₀ : ReadLoop) : Pipe := ⟨SessionWrite.init, .init s₀⟩

inductive Ev where
  /-- The posted handler `i` runs. -/
  | start (i : Nat)
  /-- The outstanding write `i` sends its next `n` bytes. -/
  | send (i n : Nat)
  | finish (i : Nat)
  /-- `n` more bytes arrive. -/
  | arrive (n : Nat)
  /-- The outstanding read takes `n` bytes. -/
  | transfer (n : Nat)
  | complete

variable (text : JsonText) (R : ExactRead.Reader ReadLoop Byte String)

/-- The calls of `write`. -/
def write (ms : List Message) (p : Pipe) : Pipe :=
  { p with out := { p.out with
    posted := p.out.posted ++ ms.map (Message.encode text), written := p.out.written ++ ms } }

def onWire (p : Pipe) : Bytes := p.out.wire.drop p.conn.arrived.length

def step (p : Pipe) : Ev → Option Pipe
  | .start i => (SessionWrite.next text p.out (.start i)).map fun out => { p with out := out }
  | .send i n => (SessionWrite.next text p.out (.send i n)).map fun out => { p with out := out }
  | .finish i => (SessionWrite.next text p.out (.finish i)).map fun out => { p with out := out }
  | .arrive n =>
    if 0 < n ∧ n ≤ p.onWire.length then
      (ExactRead.next R p.conn (.arrive (p.onWire.take n))).map fun conn => { p with conn := conn }
    else none
  | .transfer n => (ExactRead.next R p.conn (.transfer n)).map fun conn => { p with conn := conn }
  | .complete => (ExactRead.next R p.conn .complete).map fun conn => { p with conn := conn }

/-- A write is started after those before it, and when they have no bytes left. -/
def Timely (p : Pipe) : Ev → Prop
  | .start i => i = 0 ∧ ∀ op ∈ p.out.writing, SessionWrite.left op = false
  | _ => True

/-! ## The end that writes -/

/-- The bytes that writes and handlers have yet to send. -/
def unsent (out : SessionWrite.St) : Bytes :=
  ((SessionWrite.unfinished out).flatMap fun op => op.bytes.drop op.sent) ++ out.posted.flatten

/-- Frames are sent whole and in the order written. -/
structure Ordered (out : SessionWrite.St) : Prop where
  stream : out.wire ++ unsent out = out.written.flatMap (Message.encode text)
  single : (SessionWrite.unfinished out).length ≤ 1
  opened : out.broken = false ∧ out.mIsClosed = false

variable {text} {out out' : SessionWrite.St}

theorem ordered_init : Ordered text SessionWrite.init := ⟨rfl, Nat.zero_le _, rfl, rfl⟩

theorem ordered_write (h : Ordered text out) (ms : List Message) : Ordered text { out with
    posted := out.posted ++ ms.map (Message.encode text), written := out.written ++ ms } := by
  refine ⟨?_, h.single, h.opened⟩
  have hstream := h.stream
  simp only [unsent, SessionWrite.unfinished] at hstream ⊢
  rw [List.flatten_append, List.flatMap_append, ← hstream, ← List.flatMap_def]
  simp only [List.append_assoc]

theorem ordered_start (h : Ordered text out) (hidle : ∀ op ∈ out.writing, SessionWrite.left op = false)
    (hnext : SessionWrite.next text out (.start 0) = some out') : Ordered text out' := by
  obtain ⟨bytes, hposted, rfl⟩ := Option.map_eq_some_iff.mp hnext
  obtain ⟨rest, hrest⟩ : ∃ rest, out.posted = bytes :: rest := by
    cases hp : out.posted with
    | nil => simp [hp] at hposted
    | cons b rest =>
      obtain rfl : b = bytes := by simpa [hp] using hposted
      exact ⟨rest, rfl⟩
  have hnone : SessionWrite.unfinished out = [] := List.filter_eq_nil_iff.mpr fun op hop => by simp [hidle op hop]
  have hnone' : out.writing.filter SessionWrite.left = [] := hnone
  have hstream := h.stream
  rw [unsent, hnone, hrest] at hstream
  refine ⟨?_, ?_, h.opened⟩
  · rw [← hstream]
    simp only [unsent, SessionWrite.unfinished, List.filter_append, hnone', hrest]
    by_cases hleft : SessionWrite.left ⟨bytes, 0⟩ = true
    · simp [hleft]
    · have hempty : bytes = [] := by simpa [SessionWrite.left] using hleft
      simp [hempty]
  · simp only [SessionWrite.unfinished, List.filter_append, hnone', List.nil_append]
    exact (List.length_filter_le _ _).trans (Nat.le_refl 1)

theorem ordered_send (h : Ordered text out) {i n : Nat} (hnext : SessionWrite.next text out (.send i n) = some out') :
    Ordered text out' := by
  obtain ⟨op, hop, hnext⟩ := Option.bind_eq_some_iff.mp hnext
  simp only [Option.ite_none_right_eq_some, Option.some.injEq] at hnext
  obtain ⟨⟨-, -, hpos, hle⟩, rfl⟩ := hnext
  have hleft : SessionWrite.left op = true := by
    simp only [SessionWrite.left, decide_eq_true_eq]
    omega
  obtain ⟨a, b, hu, hu'⟩ := filter_set hop hleft ⟨op.bytes, op.sent + n⟩
  have hsingle := h.single
  simp only [SessionWrite.unfinished, hu, List.length_append, List.length_cons] at hsingle
  obtain rfl : a = [] := List.length_eq_zero_iff.mp (by omega)
  obtain rfl : b = [] := List.length_eq_zero_iff.mp (by omega)
  have hstream := h.stream
  simp only [unsent, SessionWrite.unfinished, hu, List.nil_append, List.flatMap_cons, List.flatMap_nil,
    List.append_nil] at hstream
  -- a write that is done has nothing left to give
  have hrest : ((out.writing.set i ⟨op.bytes, op.sent + n⟩).filter SessionWrite.left).flatMap
      (fun op => op.bytes.drop op.sent) = op.bytes.drop (op.sent + n) := by
    rw [hu']
    by_cases hdone : SessionWrite.left ⟨op.bytes, op.sent + n⟩ = true
    · simp [hdone]
    · have hend : op.bytes.length ≤ op.sent + n := by simpa [SessionWrite.left] using hdone
      simp [hdone, List.drop_eq_nil_of_le hend]
  refine ⟨?_, ?_, h.opened⟩
  · have hsplit : op.bytes.drop op.sent = (op.bytes.drop op.sent).take n ++ op.bytes.drop (op.sent + n) := by
      rw [← List.drop_drop, List.take_append_drop]
    rw [hsplit] at hstream
    simp only [unsent, SessionWrite.unfinished, hrest]
    rw [← hstream]
    simp only [List.append_assoc]
  · simp only [SessionWrite.unfinished, hu']
    split
    · exact Nat.le_refl 1
    · exact Nat.zero_le 1

theorem ordered_finish (h : Ordered text out) {i : Nat} (hnext : SessionWrite.next text out (.finish i) = some out') :
    Ordered text out' := by
  obtain ⟨op, hop, hnext⟩ := Option.bind_eq_some_iff.mp hnext
  simp only [Option.ite_none_left_eq_some, Option.some.injEq, Bool.not_eq_true] at hnext
  obtain ⟨hleft, rfl⟩ := hnext
  obtain ⟨a, b, hu, hu'⟩ := filter_eraseIdx (p := SessionWrite.left) hop
  have hsame : SessionWrite.unfinished { out with writing := out.writing.eraseIdx i } = SessionWrite.unfinished out := by
    simp [SessionWrite.unfinished, hu, hu', hleft]
  refine ⟨?_, ?_, h.opened⟩
  · rw [unsent, hsame]
    exact h.stream
  · rw [hsame]
    exact h.single

/-! ## Both ends -/

section

variable {R : ExactRead.Reader ReadLoop Byte String} {s₀ : ReadLoop} {p p' : Pipe} {e : Ev}

structure Inv (text : JsonText) (R : ExactRead.Reader ReadLoop Byte String) (s₀ : ReadLoop) (p : Pipe) : Prop where
  ordered : Ordered text p.out
  arrived : p.conn.arrived <+: p.out.wire
  reader : ExactRead.Inv R s₀ p.conn
  live : p.conn.failed = none
  sound : Sound p.conn.state

theorem inv_pipe_init (hs₀ : Sound s₀) : Inv text R s₀ (init s₀) :=
  ⟨ordered_init, List.prefix_rfl, ExactRead.inv_init R s₀, rfl, hs₀⟩

theorem inv_write (h : Inv text R s₀ p) (ms : List Message) : Inv text R s₀ (p.write text ms) :=
  ⟨ordered_write h.ordered ms, h.arrived, h.reader, h.live, h.sound⟩

theorem wire_grows {out out' : SessionWrite.St} {i n : Nat} (h : SessionWrite.next text out (.send i n) = some out') :
    out.wire <+: out'.wire := by
  obtain ⟨op, -, h⟩ := Option.bind_eq_some_iff.mp h
  simp only [Option.ite_none_right_eq_some, Option.some.injEq] at h
  obtain ⟨-, rfl⟩ := h
  exact List.prefix_append _ _

/-- A step of the reader. -/
theorem inv_read (h : Inv text R s₀ p) (hsound : ∀ s bs, Sound s → Sound (R.feed s bs))
    {own : ExactRead.Ev Byte String} (hown : ExactRead.Own own) {conn : ExactRead.Conn ReadLoop Byte String}
    (hnext : ExactRead.next R p.conn own = some conn) : Inv text R s₀ { p with conn := conn } := by
  have hreader := ExactRead.inv_next R h.reader hnext
  obtain ⟨harrived, hlive⟩ := ExactRead.own_keeps R (Machine.Run.refl.snoc hown hnext)
  refine ⟨h.ordered, harrived ▸ h.arrived, hreader, hlive.trans h.live, ?_⟩
  rcases ExactRead.next_cases R hnext with ⟨bs, -, rfl⟩ | ⟨k, n, -, -, -, -, -, rfl⟩ | ⟨-, -, rfl⟩ | ⟨x, n, rfl, -⟩
  · exact h.sound
  · exact h.sound
  · exact hsound _ _ h.sound
  · rcases hown with ⟨k, hk⟩ | hk
    · cases hk
    · cases hk

theorem inv_step (h : Inv text R s₀ p) (hsound : ∀ s bs, Sound s → Sound (R.feed s bs)) (htimely : Timely p e)
    (hstep : step text R p e = some p') : Inv text R s₀ p' := by
  cases e with
  | start i =>
    obtain ⟨out, hnext, rfl⟩ := Option.map_eq_some_iff.mp hstep
    obtain ⟨rfl, hidle⟩ := htimely
    have hwire : out.wire = p.out.wire := by
      obtain ⟨bytes, -, rfl⟩ := Option.map_eq_some_iff.mp hnext
      rfl
    exact ⟨ordered_start h.ordered hidle hnext, hwire ▸ h.arrived, h.reader, h.live, h.sound⟩
  | send i n =>
    obtain ⟨out, hnext, rfl⟩ := Option.map_eq_some_iff.mp hstep
    exact ⟨ordered_send h.ordered hnext, h.arrived.trans (wire_grows hnext), h.reader, h.live, h.sound⟩
  | finish i =>
    obtain ⟨out, hnext, rfl⟩ := Option.map_eq_some_iff.mp hstep
    have hwire : out.wire = p.out.wire := by
      obtain ⟨op, -, hnext⟩ := Option.bind_eq_some_iff.mp hnext
      simp only [Option.ite_none_left_eq_some, Option.some.injEq] at hnext
      obtain ⟨-, rfl⟩ := hnext
      rfl
    exact ⟨ordered_finish h.ordered hnext, hwire ▸ h.arrived, h.reader, h.live, h.sound⟩
  | arrive n =>
    simp only [step, Option.ite_none_right_eq_some] at hstep
    obtain ⟨-, hstep⟩ := hstep
    obtain ⟨conn, hnext, rfl⟩ := Option.map_eq_some_iff.mp hstep
    cases hnext
    refine ⟨h.ordered, ?_, ⟨h.reader.got_le, h.reader.got_nil, h.reader.live, h.reader.dead⟩, h.live, h.sound⟩
    obtain ⟨rest, hrest⟩ := h.arrived
    have hdrop : p.onWire = rest := by rw [onWire, ← hrest, List.drop_left]
    have harrived : ({ p.conn with avail := p.conn.avail ++ p.onWire.take n } :
        ExactRead.Conn ReadLoop Byte String).arrived = p.conn.arrived ++ rest.take n := by
      rw [ExactRead.Conn.arrived, hdrop, ← List.append_assoc]
      rfl
    rw [harrived, ← hrest]
    exact (List.prefix_append_right_inj _).mpr (List.take_prefix n rest)
  | transfer n =>
    obtain ⟨conn, hnext, rfl⟩ := Option.map_eq_some_iff.mp hstep
    exact inv_read h hsound (.inl ⟨n, rfl⟩) hnext
  | complete =>
    obtain ⟨conn, hnext, rfl⟩ := Option.map_eq_some_iff.mp hstep
    exact inv_read h hsound (.inr rfl) hnext

/-! ## What is handed over -/

/-- The messages handed over so far. -/
def handed (p : Pipe) : List Message := p.conn.state.invoked

variable {good : Message → Prop}

theorem written_step (hstep : step text R p e = some p') : p'.out.written = p.out.written := by
  cases e with
  | start i =>
    obtain ⟨out, hnext, rfl⟩ := Option.map_eq_some_iff.mp hstep
    obtain ⟨bytes, -, rfl⟩ := Option.map_eq_some_iff.mp hnext
    rfl
  | send i n =>
    obtain ⟨out, hnext, rfl⟩ := Option.map_eq_some_iff.mp hstep
    obtain ⟨op, -, hnext⟩ := Option.bind_eq_some_iff.mp hnext
    simp only [Option.ite_none_right_eq_some, Option.some.injEq] at hnext
    obtain ⟨-, rfl⟩ := hnext
    rfl
  | finish i =>
    obtain ⟨out, hnext, rfl⟩ := Option.map_eq_some_iff.mp hstep
    obtain ⟨op, -, hnext⟩ := Option.bind_eq_some_iff.mp hnext
    simp only [Option.ite_none_left_eq_some, Option.some.injEq] at hnext
    obtain ⟨-, rfl⟩ := hnext
    rfl
  | arrive n =>
    simp only [step, Option.ite_none_right_eq_some] at hstep
    obtain ⟨conn, -, rfl⟩ := Option.map_eq_some_iff.mp hstep.2
    rfl
  | transfer n =>
    obtain ⟨conn, -, rfl⟩ := Option.map_eq_some_iff.mp hstep
    rfl
  | complete =>
    obtain ⟨conn, -, rfl⟩ := Option.map_eq_some_iff.mp hstep
    rfl

/-- Only a completion hands something over. -/
theorem step_hands (hone : ∀ s bs, HandsOne s (R.feed s bs)) (hstep : step text R p e = some p') :
    p'.handed = p.handed ∨ e = .complete ∧ ∃ m, p'.handed = p.handed ++ [m] := by
  cases e with
  | start i =>
    obtain ⟨out, -, rfl⟩ := Option.map_eq_some_iff.mp hstep
    exact .inl rfl
  | send i n =>
    obtain ⟨out, -, rfl⟩ := Option.map_eq_some_iff.mp hstep
    exact .inl rfl
  | finish i =>
    obtain ⟨out, -, rfl⟩ := Option.map_eq_some_iff.mp hstep
    exact .inl rfl
  | arrive n =>
    simp only [step, Option.ite_none_right_eq_some] at hstep
    obtain ⟨conn, hnext, rfl⟩ := Option.map_eq_some_iff.mp hstep.2
    cases hnext
    exact .inl rfl
  | transfer n =>
    obtain ⟨conn, hnext, rfl⟩ := Option.map_eq_some_iff.mp hstep
    rcases ExactRead.next_cases R hnext with ⟨bs, hk, -⟩ | ⟨k, n, -, -, -, -, -, rfl⟩ | ⟨hk, -⟩ | ⟨x, n, hk, -⟩
    · cases hk
    · exact .inl rfl
    · cases hk
    · cases hk
  | complete =>
    obtain ⟨conn, hnext, rfl⟩ := Option.map_eq_some_iff.mp hstep
    rcases ExactRead.next_cases R hnext with ⟨bs, hk, -⟩ | ⟨k, n, hk, -⟩ | ⟨-, -, rfl⟩ | ⟨x, n, hk, -⟩
    · cases hk
    · cases hk
    · exact (hone p.conn.state p.conn.got).imp_right fun h => ⟨rfl, h⟩
    · cases hk

theorem handed_written (h : Inv text R s₀ p) (hframes : Framing.Frames R s₀ (Message.encode text) ReadLoop.invoked good)
    (hgood : ∀ m ∈ p.out.written, good m) : p.handed <+: p.out.written ∧ R.want p.conn.state ≠ none := by
  refine Framing.handed_prefix hframes hgood h.reader h.live (h.arrived.trans ?_)
  rw [← h.ordered.stream]
  exact List.prefix_append _ _

/-- No step of the pipe is left, but those before their time. -/
def Stuck (text : JsonText) (R : ExactRead.Reader ReadLoop Byte String) (p : Pipe) : Prop :=
  ∀ e, Timely p e → step text R p e = none

theorem unsent_of_stuck (h : Inv text R s₀ p) (hstuck : Stuck text R p) : unsent p.out = [] := by
  obtain ⟨hbroken, hclosed⟩ := h.ordered.opened
  have hidle : ∀ op ∈ p.out.writing, SessionWrite.left op = false := by
    intro op hop
    by_contra hleft
    obtain ⟨i, hi⟩ := List.getElem?_of_mem hop
    have hlt : op.sent + 1 ≤ op.bytes.length := by simpa [SessionWrite.left] using hleft
    have hnone := hstuck (.send i 1) trivial
    simp [step, SessionWrite.next, hi, hbroken, hclosed] at hnone
    omega
  have hposted : p.out.posted = [] := by
    cases hp : p.out.posted with
    | nil => rfl
    | cons bytes rest =>
      have hnone := hstuck (.start 0) ⟨rfl, hidle⟩
      simp [step, SessionWrite.next, hp] at hnone
  have hnone : SessionWrite.unfinished p.out = [] := List.filter_eq_nil_iff.mpr fun op hop => by simp [hidle op hop]
  rw [unsent, hnone, hposted]
  rfl

theorem arrived_of_stuck (h : Inv text R s₀ p) (hstuck : Stuck text R p) : p.conn.arrived = p.out.wire := by
  obtain ⟨rest, hrest⟩ := h.arrived
  have hdrop : p.onWire = rest := by rw [onWire, ← hrest, List.drop_left]
  cases rest with
  | nil => rw [← hrest, List.append_nil]
  | cons b rest =>
    have hnone := hstuck (.arrive 1) trivial
    simp [step, hdrop, ExactRead.next] at hnone

theorem handed_stuck (h : Inv text R s₀ p) (hframes : Framing.Frames R s₀ (Message.encode text) ReadLoop.invoked good)
    (hgood : ∀ m ∈ p.out.written, good m) (hstuck : Stuck text R p) : p.handed = p.out.written := by
  have hstream := h.ordered.stream
  rw [unsent_of_stuck h hstuck, List.append_nil, ← arrived_of_stuck h hstuck] at hstream
  have hquiet : ExactRead.Quiescent R p.conn := by
    refine ⟨fun k => ?_, ?_⟩
    · exact Option.map_eq_none_iff.mp (hstuck (.transfer k) trivial)
    · exact Option.map_eq_none_iff.mp (hstuck .complete trivial)
  exact (Framing.handed_all hframes hgood h.reader h.live hquiet hstream).1

end

end Pipe

end CryptoChat.Net
